/-
# Conjunction, disjunction and complement of numbers

Any number may stand where a truth value is expected, and everything but zero counts as
true. Four places follow this rule separately: folding with a literal operand,
evaluation, the bounds, and the cancellation of a double complement. They agree on truth
values. On numbers three of them part from evaluation. Folding and cancelling leave an
operand as it is, which is then no truth value, and a bound below zero that ends at zero
is taken for false.

Whether a connective tells the truth about its operands is therefore decided by their
common type, by what the operands and their simplified forms look like, and by their
bounds. The operands may have any types. They only have to keep their own values within
their bounds when they are simplified.
-/

import LoopNest.Proofs.Facts.Encloses
import LoopNest.Proofs.Facts.Membership

namespace LoopNest

namespace Bound

/-- The bound of a connective takes it for false: the upper end of one operand of a
conjunction, or of both operands of a disjunction, is zero. -/
def excludesTruth (op : BinaryOp) (left right : Bound) : Bool :=
  match op with
  | .and => decide (left.max = 0) || decide (right.max = 0)
  | .or => decide (left.max = 0) && decide (right.max = 0)
  | _ => false

/-- A truth value lies in the bound that is read off two questions exactly if their answers
are right. -/
theorem ofTruth_encloses_iff {always never holds : Bool} :
    (((ofTruth always never).intersect (ofDType .bool)).min ≤ BinaryOp.truth holds ∧
        BinaryOp.truth holds ≤ ((ofTruth always never).intersect (ofDType .bool)).max) ↔
      (always = true → holds = true) ∧ (never = true → holds = true → always = true) := by
  revert always never holds
  decide

end Bound

namespace Expr

variable {op : BinaryOp} {lhs rhs : Expr} {dtype : DType}

/-- One operand is a literal that does not decide the connective, so that the other
operand is all that is left of it. -/
def leavesOperand (op : BinaryOp) (lhs rhs : Expr) : Bool :=
  match lhs.value?, rhs.value? with
  | some known, none | none, some known => (op.decidedBy? known).isNone
  | _, _ => false

/-- Folding decides the connective: both operands are literals, or a literal decides it. -/
def Settles (op : BinaryOp) (lhs rhs : Expr) : Prop :=
  (lhs.isConst = true ∧ rhs.isConst = true) ∨
    ∃ known, (lhs.value? = some known ∨ rhs.value? = some known) ∧ op.decidedBy? known ≠ none

theorem leavesOperand_of_settles (h : Settles op lhs rhs) : leavesOperand op lhs rhs = false := by
  unfold leavesOperand
  rcases h with ⟨hleft, hright⟩ | ⟨known, hknown, hdecided⟩
  · split <;> simp_all [isConst]
  · rw [← Option.isSome_iff_ne_none] at hdecided
    split <;> simp_all

/-- What folding makes of a connective of operands with the values `x` and `y`: its truth
value, the operand that is left of it, or the connective itself. -/
inductive Connected (op : BinaryOp) (lhs rhs : Expr) (x y : Int) (holds : Bool) : Expr → Prop
  | settled : Settles op lhs rhs → Connected op lhs rhs x y holds (ofBool holds)
  | operand {kept : Expr} {value : Int} : leavesOperand op lhs rhs = true →
      (kept = lhs ∧ value = x ∨ kept = rhs ∧ value = y) → decide (value ≠ 0) = holds →
      Connected op lhs rhs x y holds kept
  | node : lhs.value? = none → rhs.value? = none →
      Connected op lhs rhs x y holds (binary op lhs rhs)

theorem foldNode_connective_of_value?_eq_none (hop : op.isLogical = true)
    (hleft : lhs.value? = none) (hright : rhs.value? = none) :
    foldNode op lhs rhs = binary op lhs rhs := by
  cases op <;> simp only [BinaryOp.isLogical, Bool.false_eq_true] at hop <;>
    simp [foldNode, foldLiterals?, foldNeutral?, hleft, hright, keepOffsetPositive]

/-- One literal decides a connective or leaves its other operand. -/
theorem foldNode_connective_of_value? (hop : op.isLogical = true) {known : Int} {other : Expr}
    (h : lhs.value? = some known ∧ rhs.value? = none ∧ other = rhs ∨
      lhs.value? = none ∧ rhs.value? = some known ∧ other = lhs) :
    foldNode op lhs rhs =
      if op.decidedBy? known = none then other else ofBool (decide (op = .or)) := by
  rcases h with ⟨hleft, hright, rfl⟩ | ⟨hleft, hright, rfl⟩ <;> cases op <;>
    simp only [BinaryOp.isLogical, Bool.false_eq_true] at hop <;>
    simp [foldNode, foldLiterals?, foldNeutral?, hleft, hright, BinaryOp.decidedBy?, foldAnd,
      foldOr]

/-- Only literals are viewed at another type as literals. -/
theorem value?_castTo_eq_none (h : lhs.value? = none) (dtype : DType) :
    (lhs.castTo dtype).value? = none := by
  unfold castTo
  split
  · exact h
  · rw [h]
    rfl

end Expr

namespace Facts

variable {facts : Facts} {assignment : Assignment} {op : BinaryOp} {e lhs rhs : Expr}
variable {x y left right value : Int} {holds : Bool}

/-- The facts do not confuse a connective of numbers: its folding leaves no operand, and
where it holds its bound does not take it for false. -/
def Distinguishes (facts : Facts) (op : BinaryOp) (lhs rhs : Expr) (holds : Bool) : Prop :=
  Expr.leavesOperand op lhs rhs = false ∧
    (holds = true → Bound.excludesTruth op (facts.bound lhs) (facts.bound rhs) = false)

/-- A value is enclosed before and after simplifying, which does not change the type. -/
structure Retains (facts : Facts) (assignment : Assignment) (e : Expr) (value : Int) : Prop where
  encloses : facts.Encloses assignment e value
  simplified : facts.Encloses assignment (facts.simplify e) value
  dtype_eq : (facts.simplify e).dtype = e.dtype

/-- An expression and its simplified form are the truth value, and the constant bound of
the expression encloses it. -/
structure TellsTruth (facts : Facts) (assignment : Assignment) (e : Expr) (holds : Bool) :
    Prop where
  dtype_eq : e.dtype = .bool
  encloses : facts.Encloses assignment e (BinaryOp.truth holds)
  simplified_dtype_eq : (facts.simplify e).dtype = .bool
  simplified : (facts.simplify e).eval assignment = .ok (BinaryOp.truth holds)

/-- A truth value is one or zero according to whether it is nonzero. -/
theorem Encloses.of_bool (h : facts.Encloses assignment e value) (hbool : e.dtype = .bool)
    (htruth : decide (value ≠ 0) = holds) :
    facts.Encloses assignment e (BinaryOp.truth holds) := by
  have hcontains := Expr.eval_contains h.eval
  rw [hbool, DType.contains_bool_iff] at hcontains
  subst htruth
  rcases hcontains with rfl | rfl <;> exact h

theorem bound_connective (hop : op.isLogical = true) :
    facts.bound (.binary op lhs rhs) =
      (Bound.ofOperator op (facts.bound lhs) (facts.bound rhs)).intersect (.ofDType .bool) := by
  simp [bound, Bound.ofExpr, Expr.dtype, BinaryOp.isPredicate_of_isLogical hop]

theorem bound_of_value? {known : Int} (h : e.value? = some known) :
    facts.bound e = .point known := by
  rw [Expr.eq_const_of_value? h]
  rfl

/-- A literal either decides a connective or leaves its truth to the other operand. -/
theorem decide_eq_of_decidedBy? (hop : op.isLogical = true)
    (hresult : op.compute? x y = some (BinaryOp.truth holds)) {known other : Int}
    (hknown : x = known ∧ y = other ∨ x = other ∧ y = known) :
    (op.decidedBy? known = none → decide (other ≠ 0) = holds) ∧
      (op.decidedBy? known ≠ none → holds = decide (op = .or) ∧ (known = 0 ↔ op = .and)) := by
  cases op <;> simp only [BinaryOp.isLogical, Bool.false_eq_true] at hop <;>
    simp only [BinaryOp.compute?, Option.some.injEq, BinaryOp.truth_inj] at hresult <;>
    subst hresult <;> simp only [BinaryOp.decidedBy?] <;> grind

section Folding

variable (hop : op.isLogical = true) (hx : facts.Encloses assignment lhs x)
  (hy : facts.Encloses assignment rhs y) (hresult : op.compute? x y = some (BinaryOp.truth holds))
include hop hx hy hresult

/-- A connective does not count as false while it holds, unless an operand ends at zero from
below. Every other answer that its bound gives is right. -/
theorem encloses_connective_iff :
    facts.Encloses assignment (.binary op lhs rhs) (BinaryOp.truth holds) ↔
      (holds = true → Bound.excludesTruth op (facts.bound lhs) (facts.bound rhs) = false) := by
  have hpredicate := BinaryOp.isPredicate_of_isLogical hop
  have heval : (Expr.binary op lhs rhs).eval assignment = .ok (BinaryOp.truth holds) := by
    rw [Expr.eval_binary_of_eval hx.eval hy.eval hresult]
    cases holds <;> simp [Expr.dtype, hpredicate, BinaryOp.truth]
  have hencloses : facts.Encloses assignment (.binary op lhs rhs) (BinaryOp.truth holds) ↔
      (facts.bound (.binary op lhs rhs)).min ≤ BinaryOp.truth holds ∧
        BinaryOp.truth holds ≤ (facts.bound (.binary op lhs rhs)).max :=
    ⟨fun h => ⟨h.lower, h.upper⟩, fun h => ⟨heval, h.1, h.2⟩⟩
  obtain ⟨-, hlower, hupper⟩ := hx
  obtain ⟨-, hlower', hupper'⟩ := hy
  rw [hencloses, bound_connective hop]
  clear hencloses heval
  cases op <;> simp only [BinaryOp.isLogical, Bool.false_eq_true] at hop <;>
    simp only [BinaryOp.compute?, Option.some.injEq, BinaryOp.truth_inj] at hresult <;>
    subst hresult <;>
    simp only [Bound.ofOperator, Bound.ofTruth_encloses_iff, Bound.excludesTruth,
      Bool.and_eq_true, Bool.or_eq_true, Bool.or_eq_false_iff, Bool.and_eq_false_iff,
      decide_eq_true_eq, decide_eq_false_iff_not] <;>
    grind

theorem connected_foldNode : Expr.Connected op lhs rhs x y holds (Expr.foldNode op lhs rhs) := by
  -- One literal, on either side.
  have hone : ∀ {known other : Int} {kept : Expr},
      (lhs.value? = some known ∧ rhs.value? = none ∧ kept = rhs ∨
        lhs.value? = none ∧ rhs.value? = some known ∧ kept = lhs) →
      (x = known ∧ y = other ∨ x = other ∧ y = known) →
      (kept = lhs ∧ other = x ∨ kept = rhs ∧ other = y) →
      Expr.Connected op lhs rhs x y holds (Expr.foldNode op lhs rhs) := by
    intro known other kept hliteral hvalues hkept
    obtain ⟨hopen, hdecided⟩ := decide_eq_of_decidedBy? hop hresult hvalues
    rw [Expr.foldNode_connective_of_value? hop hliteral]
    split
    · rename_i hnone
      refine .operand ?_ hkept (hopen hnone)
      rcases hliteral with ⟨hleft, hright, -⟩ | ⟨hleft, hright, -⟩ <;>
        simp [Expr.leavesOperand, hleft, hright, hnone]
    · rename_i hsome
      rw [← (hdecided hsome).1]
      exact .settled (.inr ⟨known, hliteral.imp (fun h => h.1) (fun h => h.2.1), hsome⟩)
  cases hleft : lhs.value? with
  | none =>
      cases hright : rhs.value? with
      | none =>
          rw [Expr.foldNode_connective_of_value?_eq_none hop hleft hright]
          exact .node hleft hright
      | some known =>
          obtain rfl := hy.eq_of_value? hright
          exact hone (.inr ⟨hleft, hright, rfl⟩) (.inr ⟨rfl, rfl⟩) (.inl ⟨rfl, rfl⟩)
  | some known =>
      obtain rfl := hx.eq_of_value? hleft
      cases hright : rhs.value? with
      | none => exact hone (.inl ⟨hleft, hright, rfl⟩) (.inl ⟨rfl, rfl⟩) (.inr ⟨rfl, rfl⟩)
      | some other =>
          obtain rfl := hy.eq_of_value? hright
          have hliterals : Expr.foldLiterals? op lhs rhs = some (.ofBool holds) := by
            simp [Expr.foldLiterals?, hleft, hright, hresult, Expr.resultType, Expr.ofBool,
              BinaryOp.isPredicate_of_isLogical hop]
          rw [Expr.foldNode, hliterals]
          exact .settled (.inl ⟨by simp [Expr.isConst, hleft], by simp [Expr.isConst, hright]⟩)

/-- What folding decides is never confused. -/
theorem distinguishes_of_settles (h : Expr.Settles op lhs rhs) :
    facts.Distinguishes op lhs rhs holds := by
  refine ⟨Expr.leavesOperand_of_settles h, ?_⟩
  rintro rfl
  have hfirst : ∀ known, lhs.value? = some known → x = known ∧ (facts.bound lhs).max = known :=
    fun known hknown => ⟨(hx.eq_of_value? hknown).symm, by rw [bound_of_value? hknown]; rfl⟩
  have hsecond : ∀ known, rhs.value? = some known → y = known ∧ (facts.bound rhs).max = known :=
    fun known hknown => ⟨(hy.eq_of_value? hknown).symm, by rw [bound_of_value? hknown]; rfl⟩
  simp only [Expr.Settles, Expr.isConst, Option.isSome_iff_exists] at h
  cases op <;> simp only [BinaryOp.isLogical, Bool.false_eq_true] at hop <;>
    simp only [BinaryOp.compute?, Option.some.injEq, BinaryOp.truth_inj] at hresult <;>
    simp only [Bound.excludesTruth, BinaryOp.decidedBy?] at h ⊢ <;>
    grind

/-- Where the bound of a connective takes it for false, it leaves nothing else. -/
theorem bound_of_excludesTruth
    (h : Bound.excludesTruth op (facts.bound lhs) (facts.bound rhs) = true) :
    facts.bound (.binary op lhs rhs) = .point 0 := by
  have hlower := hx.lower.trans hx.upper
  have hlower' := hy.lower.trans hy.upper
  rw [bound_connective hop]
  generalize facts.bound lhs = first at *
  generalize facts.bound rhs = second at *
  suffices hnever : Bound.ofOperator op first second = .point 0 by
    rw [hnever]
    rfl
  cases op <;> simp only [BinaryOp.isLogical, Bool.false_eq_true] at hop <;>
    simp only [Bound.excludesTruth] at h <;>
    simp only [Bound.ofOperator, Bound.ofTruth, h, if_true] <;>
    simp only [Bool.or_eq_true, Bool.and_eq_true, decide_eq_true_eq] at h ⊢ <;>
    rw [if_neg (by omega)]

section SharedType

variable (same : lhs.dtype = rhs.dtype)
include same

/-- A bound never takes a conjunction or a disjunction of truth values for false while it
holds. -/
theorem distinguishes_of_bool (hbool : lhs.dtype = .bool) (hholds : holds = true) :
    Bound.excludesTruth op (facts.bound lhs) (facts.bound rhs) = false := by
  subst hholds
  have hfirst := Expr.eval_contains hx.eval
  have hsecond := Expr.eval_contains hy.eval
  have hupper := hx.upper
  have hupper' := hy.upper
  rw [← same, hbool, DType.contains_bool_iff] at hsecond
  rw [hbool, DType.contains_bool_iff] at hfirst
  cases op <;> simp only [BinaryOp.isLogical, Bool.false_eq_true] at hop <;>
    simp only [BinaryOp.compute?, Option.some.injEq, BinaryOp.truth_inj] at hresult <;>
    simp only [Bound.excludesTruth] <;>
    grind

/-- Folding and looking at the bound once more gives the truth value exactly if the operands
are truth values or the connective is not confused. -/
theorem collapse_combine_connective_iff :
    ((facts.collapse (.combine op lhs rhs)).dtype = .bool ∧
        (facts.collapse (.combine op lhs rhs)).eval assignment = .ok (BinaryOp.truth holds)) ↔
      lhs.dtype = .bool ∨ facts.Distinguishes op lhs rhs holds := by
  rw [Expr.combine_of_dtype_eq op same, dtype_collapse]
  have hconnected := connected_foldNode hop hx hy hresult
  generalize Expr.foldNode op lhs rhs = folded at hconnected
  cases hconnected with
  | settled hsettles =>
      exact iff_of_true ⟨rfl, Expr.eval_ofBool holds⟩
        (.inr (distinguishes_of_settles hop hx hy hresult hsettles))
  | operand hleaves hkept htruth =>
      rename_i value
      have hencloses : folded.dtype = lhs.dtype ∧ facts.Encloses assignment folded value := by
        rcases hkept with ⟨rfl, rfl⟩ | ⟨rfl, rfl⟩
        · exact ⟨rfl, hx⟩
        · exact ⟨same.symm, hy⟩
      rw [hencloses.1]
      refine ⟨fun h => .inl h.1, fun h => ?_⟩
      have hbool : lhs.dtype = .bool := h.resolve_right fun h => absurd h.1 (by simp [hleaves])
      refine ⟨hbool, ?_⟩
      exact (hencloses.2.of_bool (hencloses.1.trans hbool) htruth).collapse.eval
  | node hleft hright =>
      have hdtype : (Expr.binary op lhs rhs).dtype = .bool := by
        simp [Expr.dtype, BinaryOp.isPredicate_of_isLogical hop]
      have hleaves : Expr.leavesOperand op lhs rhs = false := by
        simp [Expr.leavesOperand, hleft, hright]
      by_cases hconfused : holds = true →
          Bound.excludesTruth op (facts.bound lhs) (facts.bound rhs) = false
      · exact iff_of_true
          ⟨hdtype, ((encloses_connective_iff hop hx hy hresult).mpr hconfused).collapse.eval⟩
          (.inr ⟨hleaves, hconfused⟩)
      · simp only [Classical.not_imp, Bool.not_eq_false] at hconfused
        obtain ⟨rfl, hexcluded⟩ := hconfused
        have hpoint := bound_of_excludesTruth hop hx hy hresult hexcluded
        refine iff_of_false (fun h => ?_) ?_
        · have hfalse : facts.collapse (.binary op lhs rhs) = .ofBool false := by
            rw [collapse, hpoint, hdtype]
            rfl
          rw [hfalse, Expr.eval_ofBool] at h
          exact absurd h.2 (by decide)
        · rintro (hbool | hdistinguishes)
          · exact absurd (distinguishes_of_bool hop hx hy hresult same hbool rfl)
              (by simp [hexcluded])
          · exact absurd (hdistinguishes.2 rfl) (by simp [hexcluded])

end SharedType

end Folding

variable (facts) in
/-- A literal stays a literal. -/
theorem value?_simplify {known : Int} (h : e.value? = some known) :
    (facts.simplify e).value? = some known := by
  rw [Expr.eq_const_of_value? h]
  rfl

theorem settles_simplify (h : Expr.Settles op lhs rhs) :
    Expr.Settles op (facts.simplify lhs) (facts.simplify rhs) := by
  have hconst : ∀ {e : Expr}, e.isConst = true → (facts.simplify e).isConst = true := by
    intro e h
    obtain ⟨known, hknown⟩ := Option.isSome_iff_exists.mp h
    exact Option.isSome_iff_exists.mpr ⟨known, value?_simplify facts hknown⟩
  exact h.imp (fun h => ⟨hconst h.1, hconst h.2⟩) fun ⟨known, hknown, hdecided⟩ =>
    ⟨known, hknown.imp (value?_simplify facts) (value?_simplify facts), hdecided⟩

section Connective

variable (hop : op.isLogical = true) (hx : facts.Retains assignment lhs x)
  (hy : facts.Retains assignment rhs y) (hresult : op.compute? x y = some (BinaryOp.truth holds))
  (same : lhs.dtype = rhs.dtype)
include hop hx hy hresult same

/-- A connective of operands of one type tells the truth about them exactly if they are truth
values or it is never confused, neither before they are simplified nor afterwards. -/
theorem tellsTruth_combine_iff :
    facts.TellsTruth assignment (.combine op lhs rhs) holds ↔
      lhs.dtype = .bool ∨ facts.Distinguishes op lhs rhs holds ∧
        facts.Distinguishes op (facts.simplify lhs) (facts.simplify rhs) holds := by
  have same' : (facts.simplify lhs).dtype = (facts.simplify rhs).dtype :=
    hx.dtype_eq.trans (same.trans hy.dtype_eq.symm)
  rw [Expr.combine_of_dtype_eq op same]
  have hconnected := connected_foldNode hop hx.encloses hy.encloses hresult
  generalize Expr.foldNode op lhs rhs = folded at hconnected
  cases hconnected with
  | settled hsettles =>
      refine iff_of_true ⟨rfl, .ofBool holds, rfl, Expr.eval_ofBool holds⟩ (.inr ⟨?_, ?_⟩)
      · exact distinguishes_of_settles hop hx.encloses hy.encloses hresult hsettles
      · exact distinguishes_of_settles hop hx.simplified hy.simplified hresult
          (settles_simplify hsettles)
  | operand hleaves hkept htruth =>
      rename_i value
      have hretains : folded.dtype = lhs.dtype ∧ facts.Retains assignment folded value := by
        rcases hkept with ⟨rfl, rfl⟩ | ⟨rfl, rfl⟩
        · exact ⟨rfl, hx⟩
        · exact ⟨same.symm, hy⟩
      refine ⟨fun h => .inl (hretains.1.symm.trans h.dtype_eq), fun h => ?_⟩
      have hbool : folded.dtype = .bool :=
        hretains.1.trans (h.resolve_right fun h => absurd h.1.1 (by simp [hleaves]))
      have hbool' := hretains.2.dtype_eq.trans hbool
      exact ⟨hbool, hretains.2.encloses.of_bool hbool htruth, hbool',
        (hretains.2.simplified.of_bool hbool' htruth).eval⟩
  | node hleft hright =>
      have hsimplify : facts.simplify (.binary op lhs rhs) =
          facts.collapse (.combine op (facts.simplify lhs) (facts.simplify rhs)) := by
        cases op <;> first | rfl | cases hop
      have hdtype : (Expr.binary op lhs rhs).dtype = .bool := by
        simp [Expr.dtype, BinaryOp.isPredicate_of_isLogical hop]
      have hleaves : Expr.leavesOperand op lhs rhs = false := by
        simp [Expr.leavesOperand, hleft, hright]
      have hbefore := encloses_connective_iff hop hx.encloses hy.encloses hresult
      have hafter := collapse_combine_connective_iff hop hx.simplified hy.simplified hresult same'
      rw [← hsimplify, hx.dtype_eq] at hafter
      constructor
      · intro h
        exact (hafter.mp ⟨h.simplified_dtype_eq, h.simplified⟩).imp_right
          fun hdistinguishes => ⟨⟨hleaves, hbefore.mp h.encloses⟩, hdistinguishes⟩
      · intro h
        obtain ⟨hdtype', hvalue⟩ := hafter.mpr (h.imp_right fun h => h.2)
        refine ⟨hdtype, hbefore.mpr ?_, hdtype', hvalue⟩
        exact h.elim (distinguishes_of_bool hop hx.encloses hy.encloses hresult same)
          fun h => h.1.2

/-- A connective that has the type of truth values has the truth value of its operands. -/
theorem eval_combine_connective (hbool : (Expr.combine op lhs rhs).dtype = .bool) :
    (Expr.combine op lhs rhs).eval assignment = .ok (BinaryOp.truth holds) := by
  rw [Expr.combine_of_dtype_eq op same] at hbool ⊢
  have hconnected := connected_foldNode hop hx.encloses hy.encloses hresult
  generalize Expr.foldNode op lhs rhs = folded at hconnected hbool
  cases hconnected with
  | settled hsettles => exact Expr.eval_ofBool holds
  | operand hleaves hkept htruth =>
      rcases hkept with ⟨rfl, rfl⟩ | ⟨rfl, rfl⟩
      · exact (hx.encloses.of_bool hbool htruth).eval
      · exact (hy.encloses.of_bool hbool htruth).eval
  | node hleft hright =>
      rw [Expr.eval_binary_of_eval hx.encloses.eval hy.encloses.eval hresult, hbool]
      cases holds <;> rfl

end Connective

/-- An operand that is viewed at another type retains what the type leaves of its value. -/
theorem Retains.castTo (h : facts.Retains assignment e value) (dtype : DType) :
    facts.Retains assignment (e.castTo dtype) (dtype.truncate value) := by
  have hencloses := h.encloses.castTo dtype
  unfold Expr.castTo at hencloses ⊢
  split at hencloses
  · rename_i hdtype
    rwa [if_pos hdtype, DType.truncate_of_contains (hdtype ▸ Expr.eval_contains h.encloses.eval)]
  · rename_i hdtype
    rw [if_neg hdtype]
    split at hencloses
    · exact ⟨hencloses, hencloses, rfl⟩
    · exact ⟨hencloses, (h.simplified.castTo dtype).collapse,
        (dtype_collapse _ _).trans (Expr.dtype_castTo _ _)⟩

section Promoted

variable (hop : op.isLogical = true) (hleft : facts.Retains assignment lhs left)
  (hright : facts.Retains assignment rhs right)
include hop hleft hright

/-- A connective tells the truth about two operands exactly if their common type does not
change it, and the operands are truth values of that type or never confused. -/
theorem tellsTruth_connective_iff (holds : Bool) :
    let operands := Expr.promote lhs rhs
    let common := operands.1.dtype
    facts.TellsTruth assignment (.combine op lhs rhs) holds ↔
      op.compute? (common.truncate left) (common.truncate right) = some (BinaryOp.truth holds) ∧
        (common = .bool ∨ facts.Distinguishes op operands.1 operands.2 holds ∧
          facts.Distinguishes op (facts.simplify operands.1) (facts.simplify operands.2)
            holds) := by
  intro operands common
  have hpromote : operands = (lhs.castTo common, rhs.castTo common) :=
    Expr.promote_eq_castTo lhs rhs
  have hfirst : facts.Retains assignment operands.1 (common.truncate left) :=
    hpromote ▸ hleft.castTo common
  have hsecond : facts.Retains assignment operands.2 (common.truncate right) :=
    hpromote ▸ hright.castTo common
  have same := Expr.dtype_promote lhs rhs
  rw [← Expr.combine_promote]
  constructor
  · intro h
    obtain ⟨outcome, houtcome⟩ : ∃ outcome,
        op.compute? (common.truncate left) (common.truncate right) =
          some (BinaryOp.truth outcome) := by
      cases op <;> first | exact ⟨_, rfl⟩ | cases hop
    have heval := eval_combine_connective hop hfirst hsecond houtcome same h.dtype_eq
    obtain rfl : outcome = holds :=
      BinaryOp.truth_inj.mp (Except.ok.inj (heval.symm.trans h.encloses.eval))
    exact ⟨houtcome, (tellsTruth_combine_iff hop hfirst hsecond houtcome same).mp h⟩
  · rintro ⟨houtcome, h⟩
    exact (tellsTruth_combine_iff hop hfirst hsecond houtcome same).mpr h

end Promoted

/-- A left operand that decides a connective decides it whatever becomes of the right one. -/
theorem eval_combine_of_decidedBy? (hop : op.isLogical = true)
    (hleft : facts.Encloses assignment lhs left) (hopen : rhs.value? = none) {decided : Int}
    (hdecided : op.decidedBy? ((Expr.promote lhs rhs).1.dtype.truncate left) = some decided) :
    (Expr.combine op lhs rhs).eval assignment = .ok decided := by
  have hpromote := Expr.promote_eq_castTo lhs rhs
  have same := Expr.dtype_promote lhs rhs
  rw [← Expr.combine_promote, Expr.combine_of_dtype_eq op same, hpromote]
  generalize (Expr.promote lhs rhs).1.dtype = common at *
  have hfirst := hleft.castTo common
  have hsecond := Expr.value?_castTo_eq_none hopen common
  cases hknown : (lhs.castTo common).value? with
  | none =>
      rw [Expr.foldNode_connective_of_value?_eq_none hop hknown hsecond]
      exact Expr.eval_binary_of_decidedBy? hfirst.eval hdecided
  | some known =>
      obtain rfl := hfirst.eq_of_value? hknown
      rw [Expr.foldNode_connective_of_value? hop (.inl ⟨hknown, hsecond, rfl⟩),
        if_neg (by simp [hdecided]), Expr.eval_ofBool]
      cases op <;> simp only [BinaryOp.isLogical, Bool.false_eq_true] at hop <;>
        simp only [BinaryOp.decidedBy?, Option.ite_none_right_eq_some,
          Option.some.injEq] at hdecided <;>
        exact congrArg Except.ok hdecided.2

/-- If the expression is a comparison of numbers, then its operands are enclosed and the bounds
of their differences admit the differences of their values. -/
def ComparesRightly (facts : Facts) (assignment : Assignment) (e : Expr) : Prop :=
  ∀ op lhs rhs, e = .binary op lhs rhs → op.isComparison = true →
    lhs.dtype = rhs.dtype ∧ ∃ left right,
      facts.Encloses assignment lhs left ∧ facts.Encloses assignment rhs right ∧
        (lhs.dtype ≠ .bool → (facts.differenceBound lhs rhs).Admits (left - right) ∧
          (facts.differenceBound rhs lhs).Admits (right - left))

section Complement

/-- A comparison keeps its value where the bound of the difference is right. -/
theorem encloses_simplifyComparison_of_admits (hop : op.isComparison = true)
    (same : lhs.dtype = rhs.dtype) (hleft : facts.Encloses assignment lhs left)
    (hright : facts.Encloses assignment rhs right)
    (hadmits : lhs.dtype ≠ .bool → (facts.differenceBound lhs rhs).Admits (left - right))
    (hresult : op.compute? left right = some (BinaryOp.truth holds)) :
    (facts.simplifyComparison op lhs rhs).dtype = .bool ∧
      facts.Encloses assignment (facts.simplifyComparison op lhs rhs) (BinaryOp.truth holds) := by
  have hdtype : (Expr.combine op lhs rhs).dtype = .bool := by
    rw [Expr.dtype_combine same (by simp [BinaryOp.isLogical_of_order (.inl hop)])]
    simp [Expr.resultType, BinaryOp.isPredicate, hop]
  have hcombine := Encloses.combine_comparison hop same hleft hright hresult
  unfold simplifyComparison
  split
  · exact ⟨hdtype, hcombine⟩
  · rename_i hnumbers
    split
    · rename_i decided hdecided
      have hne : lhs.dtype ≠ .bool := fun hbool => hnumbers (by simp [hbool, DType.isBool])
      have hright := compute?_of_decideComparison (hadmits hne) hdecided
      rw [hresult, Option.some.injEq, BinaryOp.truth_inj] at hright
      exact ⟨rfl, hright ▸ .ofBool _⟩
    · exact ⟨hdtype, hcombine⟩

/-- A double complement that loses both complements keeps its value where the operand is a
truth value. -/
theorem eval_collapse_of_not {inner : Expr} (h : facts.Encloses assignment (.not inner) value)
    (hbool : inner.dtype = .bool) :
    (facts.collapse inner).eval assignment = .ok (BinaryOp.truth (decide (value = 0))) := by
  obtain ⟨operand, hoperand, rfl⟩ := Expr.eval_not_inv h.eval
  have hcontains := Expr.eval_contains hoperand
  rw [hbool, DType.contains_bool_iff] at hcontains
  have hvalue : operand = BinaryOp.truth (decide (BinaryOp.truth (decide (operand = 0)) = 0)) := by
    rcases hcontains with rfl | rfl <;> rfl
  rw [← hvalue]
  unfold collapse
  split
  · exact hoperand
  · simp only
    split
    · rename_i hpoint
      have hencloses : (facts.bound (.not inner)) =
          ((facts.bound inner).complement).intersect (.ofDType .bool) := rfl
      have hright := h.lower
      have hright' := h.upper
      rw [hencloses, Bound.complement] at hright hright'
      obtain ⟨halways, hnever⟩ := Bound.ofTruth_encloses_iff.mp ⟨hright, hright'⟩
      simp only [Bound.isPoint, Bool.and_eq_true, Bool.or_eq_true, decide_eq_true_eq]
        at hpoint halways hnever
      rw [hbool, Expr.eval_literal_wrapped, DType.truncate]
      refine congrArg Except.ok ?_
      split <;> omega
    · exact hoperand

variable (facts lhs rhs) in
/-- A comparison is complemented by asking the opposite question, of the same operands or of
the exchanged ones. -/
theorem simplifyNot_comparison (hop : op.isComparison = true)
    (hresult : op.compute? left right = some value) :
    ∃ opposite : BinaryOp, opposite.isComparison = true ∧
      (facts.simplifyNot (.binary op lhs rhs) = facts.simplifyComparison opposite rhs lhs ∧
          opposite.compute? right left = some (BinaryOp.truth (decide (value = 0))) ∨
        facts.simplifyNot (.binary op lhs rhs) = facts.simplifyComparison opposite lhs rhs ∧
          opposite.compute? left right = some (BinaryOp.truth (decide (value = 0)))) := by
  cases op <;> simp only [BinaryOp.isComparison, Bool.false_eq_true] at hop <;>
    obtain rfl := Option.some.inj hresult <;> rw [BinaryOp.decide_truth_eq_zero]
  · exact ⟨.le, rfl, .inl ⟨rfl, by simp [BinaryOp.compute?, ← decide_not]⟩⟩
  · exact ⟨.lt, rfl, .inl ⟨rfl, by simp [BinaryOp.compute?, ← decide_not]⟩⟩
  · exact ⟨.ne, rfl, .inr ⟨rfl, by simp [BinaryOp.compute?]⟩⟩
  · exact ⟨.eq, rfl, .inr ⟨rfl, by simp [BinaryOp.compute?]⟩⟩

/-- The complement of a simplified expression is its truth value, unless it cancels with the
complement of a number. -/
theorem collapse_simplifyNot_iff (h : facts.Encloses assignment e value)
    (hcompares : facts.ComparesRightly assignment e) :
    ((facts.collapse (facts.simplifyNot e)).dtype = .bool ∧
        (facts.collapse (facts.simplifyNot e)).eval assignment =
          .ok (BinaryOp.truth (decide (value = 0)))) ↔
      ∀ inner, e = .not inner → inner.dtype = .bool := by
  rw [dtype_collapse]
  by_cases hcomparison : ∃ op lhs rhs, e = .binary op lhs rhs ∧ op.isComparison = true
  · obtain ⟨op, lhs, rhs, rfl, hop⟩ := hcomparison
    obtain ⟨same, left, right, hleft, hright, hadmits⟩ := hcompares op lhs rhs rfl hop
    obtain ⟨first, second, hfirst, hsecond, hresult⟩ := Expr.eval_comparison_inv hop h.eval
    obtain rfl := Except.ok.inj (hfirst.symm.trans hleft.eval)
    obtain rfl := Except.ok.inj (hsecond.symm.trans hright.eval)
    have hcompared : (facts.simplifyNot (.binary op lhs rhs)).dtype = .bool ∧
        facts.Encloses assignment (facts.simplifyNot (.binary op lhs rhs))
          (BinaryOp.truth (decide (value = 0))) := by
      obtain ⟨opposite, hopposite, ⟨heq, hother⟩ | ⟨heq, hother⟩⟩ :=
        simplifyNot_comparison facts lhs rhs hop hresult
      · rw [heq]
        exact encloses_simplifyComparison_of_admits hopposite same.symm hright hleft
          (fun hbool => (hadmits (same ▸ hbool)).2) hother
      · rw [heq]
        exact encloses_simplifyComparison_of_admits hopposite same hleft hright
          (fun hbool => (hadmits hbool).1) hother
    exact iff_of_true ⟨hcompared.1, hcompared.2.collapse.eval⟩ (by simp)
  · by_cases hdouble : ∃ inner, e = .not inner
    · obtain ⟨inner, rfl⟩ := hdouble
      refine ⟨fun hkept other hother => Expr.not.inj hother ▸ hkept.1, fun hkept => ?_⟩
      exact ⟨hkept inner rfl, eval_collapse_of_not h (hkept inner rfl)⟩
    · have hcomplement : facts.simplifyNot e = e.complement := by
        unfold simplifyNot
        split
        case h_5 inner => exact absurd ⟨inner, rfl⟩ hdouble
        case h_6 => rfl
        all_goals exact absurd ⟨_, _, _, rfl, rfl⟩ hcomparison
      rw [hcomplement]
      exact iff_of_true ⟨Expr.dtype_complement e, h.complement.collapse.eval⟩
        fun inner hinner => absurd ⟨inner, hinner⟩ hdouble

/-- A complement tells the truth exactly if it does not cancel with the complement of a number. -/
theorem tellsTruth_complement_iff (h : facts.Retains assignment e value)
    (hcompares : facts.ComparesRightly assignment (facts.simplify e)) :
    facts.TellsTruth assignment e.complement (decide (value = 0)) ↔
      ∀ inner, facts.simplify e = .not inner → inner.dtype = .bool := by
  have hiff := collapse_simplifyNot_iff h.simplified hcompares
  cases hvalue : e.value? with
  | some known =>
      have hliteral := Expr.eq_const_of_value? (value?_simplify facts hvalue)
      obtain rfl := h.encloses.eq_of_value? hvalue
      have hcomplement : e.complement = .ofBool (decide (known = 0)) := by
        rw [Expr.complement, hvalue]
      rw [hcomplement, hliteral]
      exact iff_of_true ⟨rfl, .ofBool _, rfl, Expr.eval_ofBool _⟩ (by simp)
  | none =>
      have hcomplement : e.complement = .not e := by
        rw [Expr.complement, hvalue]
      have hencloses := h.encloses.complement
      rw [hcomplement] at hencloses ⊢
      rw [← hiff]
      exact ⟨fun h => ⟨h.simplified_dtype_eq, h.simplified⟩,
        fun h => ⟨rfl, hencloses, h.1, h.2⟩⟩

end Complement

/-- The connectives tell the truth about enclosed operands exactly where they are not confused:
a conjunction or a disjunction if the common type keeps the truth of the operands and is the
type of truth values, or else no operand is left alone and no bound is taken for false; a
complement if it does not cancel with the complement of a number. What the left operand decides
does not depend on the right one. -/
theorem connectives_tellTruth_iff (hleft : facts.Retains assignment lhs left)
    (hright : facts.Retains assignment rhs right)
    (hcompares : facts.ComparesRightly assignment (facts.simplify lhs)) :
    (∀ op : BinaryOp, op.isLogical = true → ∀ holds,
        op.compute? left right = some (BinaryOp.truth holds) →
          let operands := Expr.promote lhs rhs
          let common := operands.1.dtype
          (facts.TellsTruth assignment (.combine op lhs rhs) holds ↔
            op.compute? (common.truncate left) (common.truncate right) =
                op.compute? left right ∧
              (common = .bool ∨ facts.Distinguishes op operands.1 operands.2 holds ∧
                facts.Distinguishes op (facts.simplify operands.1) (facts.simplify operands.2)
                  holds))) ∧
      (∀ op : BinaryOp, op.isLogical = true → ∀ guarded decided, guarded.value? = none →
        op.decidedBy? ((Expr.promote lhs guarded).1.dtype.truncate left) = some decided →
          (Expr.combine op lhs guarded).eval assignment = .ok decided) ∧
      (facts.TellsTruth assignment lhs.complement (decide (left = 0)) ↔
        ∀ inner, facts.simplify lhs = .not inner → inner.dtype = .bool) := by
  refine ⟨fun op hop holds hresult => ?_, fun op hop guarded decided hopen hdecided => ?_,
    tellsTruth_complement_iff hleft hcompares⟩
  · rw [hresult]
    exact tellsTruth_connective_iff hop hleft hright holds
  · exact eval_combine_of_decidedBy? hop hleft.encloses hopen hdecided

/-- Where facts are respected, what can be simplified exactly is retained. -/
theorem Respects.retains (hrespects : facts.Respects assignment) (hwell : e.WellTyped)
    (hexact : e.Exact assignment) (h : facts.SimplifiesExactly assignment e)
    (hvalue : e.eval assignment = .ok value) : facts.Retains assignment e value :=
  ⟨hrespects.encloses hwell.formed hexact hvalue, hrespects.encloses_simplify hwell h hvalue,
    (facts.typedAt_simplify hwell).dtype_eq⟩

/-- Minus three and four are both nonzero. But a number that is at most zero counts as false in a
conjunction, remains alone beside a true literal, and survives a double complement. -/
theorem not_tellsTruth_of_nonpositive :
    let x : Var := ⟨.parameter 0, "x", .int32⟩
    let y : Var := ⟨.parameter 1, "y", .int32⟩
    let facts := empty.bind x ⟨.const .int32 (-5), .const .int32 6⟩
    let assignment : Assignment := fun v => if v = x then some (-3) else some 4
    ¬facts.TellsTruth assignment ((Expr.var x).and (.var y)) true ∧
      ¬facts.TellsTruth assignment ((Expr.var x).and (.ofBool true)) true ∧
      ¬facts.TellsTruth assignment (Expr.var x).complement.complement true := by
  intro x y facts assignment
  have hranges : facts.RangesHold assignment := by
    intro v range value hrange hvalue
    obtain ⟨rfl, rfl⟩ : v = x ∧ range = ⟨.const .int32 (-5), .const .int32 6⟩ := by
      simp only [facts, Facts.bind, empty, Option.ite_none_right_eq_some,
        Option.some.injEq] at hrange
      exact ⟨hrange.1, hrange.2.symm⟩
    obtain rfl : -3 = value := Except.ok.inj ((show (Expr.var x).eval assignment = .ok (-3) by
      decide).symm.trans hvalue)
    exact ⟨⟨by decide, by decide⟩, ⟨by decide, by decide⟩, -5, 1, by decide, by decide, by decide,
      by decide⟩
  have hrespects : facts.Respects assignment := ⟨hranges, by simp [facts, Facts.bind, empty]⟩
  have hx : facts.Retains assignment (.var x) (-3) :=
    hrespects.retains (by decide) (by decide) (by decide) (by decide)
  have hy : facts.Retains assignment (.var y) 4 :=
    hrespects.retains (by decide) (by decide) (by decide) (by decide)
  have hnot : facts.Retains assignment (Expr.var x).complement 0 :=
    ⟨hx.encloses.complement, hx.encloses.complement.collapse, rfl⟩
  have htrue : facts.Retains assignment (.ofBool true) 1 := ⟨.ofBool true, .ofBool true, rfl⟩
  have hplain : facts.ComparesRightly assignment (facts.simplify (.var x)) := by
    rw [show facts.simplify (.var x) = .var x by decide]
    intro op lhs rhs heq
    cases heq
  have hcomplement : facts.ComparesRightly assignment
      (facts.simplify (Expr.var x).complement) := by
    rw [show facts.simplify (Expr.var x).complement = .not (.var x) by decide]
    intro op lhs rhs heq
    cases heq
  have hbound := (connectives_tellTruth_iff hx hy hplain).1 .and rfl true rfl
  have halone := (connectives_tellTruth_iff hx htrue hplain).1 .and rfl true rfl
  have hdouble := (connectives_tellTruth_iff hnot hy hcomplement).2.2
  refine ⟨fun h => ?_, fun h => ?_, fun h => ?_⟩
  · obtain ⟨-, hbool | ⟨⟨-, hexcluded⟩, -⟩⟩ := hbound.mp h
    · exact absurd hbool (by decide)
    · exact absurd (hexcluded rfl) (by decide)
  · obtain ⟨-, hbool | ⟨⟨hleaves, -⟩, -⟩⟩ := halone.mp h
    · exact absurd hbool (by decide)
    · exact absurd hleaves (by decide)
  · exact absurd (hdouble.mp h (.var x) (by decide)) (by decide)

end Facts

end LoopNest
