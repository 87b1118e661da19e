/-
# Membership of values

A value belongs to a set when it lies between those ends of the set that are there. The ends
are numbers, possibly of different types, since an end that is computed from two others has
the type in which these meet. An operator on sets keeps membership when the ends that it
computes are what the operator computes on integers. Ends that it does not combine may be
anything.

So whatever the types are, an arithmetic expression takes its values in the set that the
analysis finds for it, unless something wraps: a value on the way or an end.
-/

import LoopNest.Proofs.Facts.Mentions
import LoopNest.Proofs.Facts.Mixed
import LoopNest.Proofs.Facts.Values

namespace LoopNest

namespace Expr

variable {e first second lhs rhs : Expr} {op : BinaryOp} {left right x y : Int} {dtype : DType}
  {assignment : Assignment}

/-- The expression is a literal that lies in its type. -/
def IsNumber (e : Expr) (value : Int) : Prop :=
  e.Formed ∧ e.value? = some value

theorem isNumber_const (h : dtype.contains x = true) : (const dtype x).IsNumber x :=
  ⟨h, rfl⟩

theorem isNumber_zero (dtype : DType) : (zero dtype).IsNumber 0 := by
  rw [zero, literal, DType.truncate_zero]
  exact isNumber_const dtype.contains_zero

theorem IsNumber.exists_const (h : e.IsNumber x) :
    ∃ dtype : DType, e = const dtype x ∧ dtype.contains x = true := by
  have heq := eq_const_of_value? h.2
  refine ⟨e.dtype, heq, ?_⟩
  have hformed := h.1
  rwa [heq] at hformed

theorem IsNumber.unique (h : e.IsNumber x) (h' : e.IsNumber y) : x = y :=
  Option.some.inj (h.2.symm.trans h'.2)

/-- Two literals are combined like integers: the operator is defined and nothing wraps. -/
def CombinesExactly (op : BinaryOp) (first second : Expr) : Prop :=
  ∀ left ∈ first.value?, ∀ right ∈ second.value?, ∃ result ∈ op.compute? left right,
    (combine op first second).value? = some result

instance (op : BinaryOp) (first second : Expr) : Decidable (CombinesExactly op first second) :=
  inferInstanceAs (Decidable (∀ left ∈ first.value?, ∀ right ∈ second.value?,
    ∃ result ∈ op.compute? left right, _))

theorem CombinesExactly.isNumber (h : CombinesExactly op first second)
    (hop : op.isPredicate = false) (hfirst : first.IsNumber left)
    (hsecond : second.IsNumber right) :
    ∃ result, op.compute? left right = some result ∧ (combine op first second).IsNumber result := by
  obtain ⟨result, hresult, hvalue⟩ := h left hfirst.2 right hsecond.2
  have hlogical := BinaryOp.not_isLogical hop
  exact ⟨result, hresult, formed_combine hfirst.1 hsecond.1 fun hl => absurd hl hlogical, hvalue⟩

/-- Numbers, variables and what arithmetic operators make of them. -/
def IsArithmetic : Expr → Prop
  | const _ _ | var _ => True
  | cast _ source => source.IsArithmetic
  | neg operand => operand.IsArithmetic
  | not _ => False
  | binary op lhs rhs => op.isPredicate = false ∧ lhs.IsArithmetic ∧ rhs.IsArithmetic

instance decidableIsArithmetic : DecidablePred IsArithmetic
  | const _ _ | var _ => inferInstanceAs (Decidable True)
  | cast _ source => decidableIsArithmetic source
  | neg operand => decidableIsArithmetic operand
  | not _ => inferInstanceAs (Decidable False)
  | binary op lhs rhs =>
    haveI := decidableIsArithmetic lhs
    haveI := decidableIsArithmetic rhs
    inferInstanceAs (Decidable (op.isPredicate = false ∧ lhs.IsArithmetic ∧ rhs.IsArithmetic))

/-- Operands that are brought to one type beforehand are joined in the same way. -/
theorem combine_promote (op : BinaryOp) (lhs rhs : Expr) :
    combine op (promote lhs rhs).1 (promote lhs rhs).2 = combine op lhs rhs := by
  rw [combine_of_dtype_eq op (dtype_promote lhs rhs), combine]

theorem isArithmetic_literal (dtype : DType) (value : Int) : (literal dtype value).IsArithmetic :=
  trivial

theorem isArithmetic_castTo (h : e.IsArithmetic) (dtype : DType) :
    (e.castTo dtype).IsArithmetic := by
  unfold castTo
  split
  · exact h
  · split
    · trivial
    · exact h

/-- Arithmetic operators keep expressions arithmetic. -/
theorem isArithmetic_combine (hop : op.isPredicate = false) (hlhs : lhs.IsArithmetic)
    (hrhs : rhs.IsArithmetic) : (combine op lhs rhs).IsArithmetic := by
  have hlogical := BinaryOp.not_isLogical hop
  have hpromoted : (promote lhs rhs).1.IsArithmetic ∧ (promote lhs rhs).2.IsArithmetic := by
    unfold promote
    split
    · exact ⟨hlhs, hrhs⟩
    · split
      · exact ⟨isArithmetic_castTo hlhs _, hrhs⟩
      · exact ⟨hlhs, isArithmetic_castTo hrhs _⟩
      · exact ⟨isArithmetic_castTo hlhs _, isArithmetic_castTo hrhs _⟩
  have hfolded : Folded op (promote lhs rhs).1 (promote lhs rhs).2 (combine op lhs rhs) :=
    combine_promote op lhs rhs ▸ folded_combine (dtype_promote lhs rhs) fun h => absurd h hlogical
  generalize combine op lhs rhs = folded at hfolded ⊢
  cases hfolded with
  | literal value => exact isArithmetic_literal _ value
  | left same => exact hpromoted.1
  | right same => exact hpromoted.2
  | node => exact ⟨hop, hpromoted⟩
  | offset turned value before after =>
      exact ⟨after, hpromoted.1, isArithmetic_literal _ value⟩

/-- No node of an arithmetic expression wraps, and no cast loses a value. -/
def Wrapless (assignment : Assignment) : Expr → Prop
  | const _ _ | var _ => True
  | cast dtype source =>
    source.Wrapless assignment ∧ source.IfValue assignment (dtype.contains · = true)
  | neg operand =>
    operand.Wrapless assignment ∧ operand.IfValue assignment fun value =>
      operand.dtype.contains (-value) = true
  | not operand => operand.Wrapless assignment
  | binary op lhs rhs =>
    lhs.Wrapless assignment ∧ rhs.Wrapless assignment ∧ lhs.IfValue assignment fun left =>
      rhs.IfValue assignment fun right => ∀ result ∈ op.compute? left right,
        lhs.dtype.contains result = true

instance decidableWrapless (assignment : Assignment) : DecidablePred (Wrapless assignment)
  | const _ _ | var _ => inferInstanceAs (Decidable True)
  | cast dtype source =>
    haveI := decidableWrapless assignment source
    inferInstanceAs (Decidable (source.Wrapless assignment ∧
      source.IfValue assignment (dtype.contains · = true)))
  | neg operand =>
    haveI := decidableWrapless assignment operand
    inferInstanceAs (Decidable (operand.Wrapless assignment ∧ operand.IfValue assignment
      fun value => operand.dtype.contains (-value) = true))
  | not operand => decidableWrapless assignment operand
  | binary op lhs rhs =>
    haveI := decidableWrapless assignment lhs
    haveI := decidableWrapless assignment rhs
    inferInstanceAs (Decidable (lhs.Wrapless assignment ∧ rhs.Wrapless assignment ∧
      lhs.IfValue assignment fun left => rhs.IfValue assignment fun right =>
        ∀ result ∈ op.compute? left right, lhs.dtype.contains result = true))

end Expr

namespace ValueSet

variable {set left right : ValueSet} {op : BinaryOp} {x y : Int} {e : Expr}
  {leftEnd rightEnd : Option Expr} {holds holdsLeft holdsRight : Int → Prop}

/-- The ends that a set has are numbers, and a value lies between them. -/
structure Has (set : ValueSet) (x : Int) : Prop where
  nonempty : set.isEmpty = false
  low : ∀ e ∈ set.min?, ∃ l, e.IsNumber l ∧ l ≤ x
  high : ∀ e ∈ set.max?, ∃ u, e.IsNumber u ∧ x ≤ u

theorem has_everything (x : Int) : everything.Has x :=
  ⟨rfl, nofun, nofun⟩

theorem has_between {low high : Expr} {l u : Int} (hlow : low.IsNumber l) (hhigh : high.IsNumber u)
    (hl : l ≤ x) (hu : x ≤ u) : (between low high).Has x :=
  ⟨rfl, fun _ he => ⟨l, Option.some.inj he ▸ hlow, hl⟩,
    fun _ he => ⟨u, Option.some.inj he ▸ hhigh, hu⟩⟩

theorem has_point (h : e.IsNumber x) : (point e).Has x :=
  has_between h h le_rfl le_rfl

/-- The point of a set is the only value in it. -/
theorem Has.isNumber_of_point? (h : set.Has x) (hpoint : set.point? = some e) : e.IsNumber x := by
  unfold point? at hpoint
  split at hpoint
  · rename_i low high
    obtain ⟨rfl, hlow⟩ := Option.ite_none_right_eq_some.mp hpoint
    obtain ⟨l, hl, hle⟩ := h.low _ rfl
    obtain ⟨u, hu, hle'⟩ := h.high _ rfl
    obtain rfl := hl.unique hu
    obtain rfl : l = x := by omega
    exact Option.some.inj hlow ▸ hl
  · cases hpoint

/-- Ends that keep their numbers keep the set. -/
theorem Has.mapEnds (h : set.Has x) {f : Expr → Expr}
    (hf : ∀ e ∈ set.ends, ∀ l, e.IsNumber l → (f e).IsNumber l) : (set.mapEnds f).Has x := by
  obtain ⟨hnonempty, hlow, hhigh⟩ := h
  cases set with
  | empty => cases hnonempty
  | interval low high =>
      refine ⟨rfl, fun e he => ?_, fun e he => ?_⟩
      · obtain ⟨e', he', rfl⟩ := Option.map_eq_some_iff.mp he
        obtain ⟨l, hl, hle⟩ := hlow e' he'
        exact ⟨l, hf e' (mem_ends_of_min? he') l hl, hle⟩
      · obtain ⟨e', he', rfl⟩ := Option.map_eq_some_iff.mp he
        obtain ⟨u, hu, hle⟩ := hhigh e' he'
        exact ⟨u, hf e' (mem_ends_of_max? he') u hu, hle⟩

theorem Has.negate (h : set.Has x)
    (hf : ∀ e ∈ set.ends, ∀ l, e.IsNumber l → e.negate.IsNumber (-l)) : set.negate.Has (-x) := by
  obtain ⟨hnonempty, hlow, hhigh⟩ := h
  cases set with
  | empty => cases hnonempty
  | interval low high =>
      refine ⟨rfl, fun e he => ?_, fun e he => ?_⟩
      · obtain ⟨e', he', rfl⟩ := Option.map_eq_some_iff.mp he
        obtain ⟨u, hu, hle⟩ := hhigh e' he'
        exact ⟨-u, hf e' (mem_ends_of_max? he') u hu, neg_le_neg hle⟩
      · obtain ⟨e', he', rfl⟩ := Option.map_eq_some_iff.mp he
        obtain ⟨l, hl, hle⟩ := hlow e' he'
        exact ⟨-l, hf e' (mem_ends_of_min? he') l hl, neg_le_neg hle⟩

/-- A function that keeps the order moves the ends along, and one that reverses it exchanges
them. -/
theorem Has.moveEnds (h : set.Has x) {f : Expr → Expr} {g : Int → Int}
    (hf : ∀ e ∈ set.ends, ∀ l, e.IsNumber l → (f e).IsNumber (g l)) {increasing : Bool}
    (hmono : increasing = true → ∀ {a b}, a ≤ b → g a ≤ g b)
    (hanti : increasing = false → ∀ {a b}, a ≤ b → g b ≤ g a) :
    (set.moveEnds increasing f).Has (g x) := by
  have hlow : ∀ e ∈ set.min?.map f, ∃ l, e.IsNumber (g l) ∧ l ≤ x := by
    intro e he
    obtain ⟨e', he', rfl⟩ := Option.map_eq_some_iff.mp he
    obtain ⟨l, hl, hle⟩ := h.low e' he'
    exact ⟨l, hf e' (mem_ends_of_min? he') l hl, hle⟩
  have hhigh : ∀ e ∈ set.max?.map f, ∃ u, e.IsNumber (g u) ∧ x ≤ u := by
    intro e he
    obtain ⟨e', he', rfl⟩ := Option.map_eq_some_iff.mp he
    obtain ⟨u, hu, hle⟩ := h.high e' he'
    exact ⟨u, hf e' (mem_ends_of_max? he') u hu, hle⟩
  cases increasing with
  | true =>
      exact ⟨rfl, fun e he => (hlow e he).imp' g fun _ hl => ⟨hl.1, hmono rfl hl.2⟩,
        fun e he => (hhigh e he).imp' g fun _ hu => ⟨hu.1, hmono rfl hu.2⟩⟩
  | false =>
      exact ⟨rfl, fun e he => (hhigh e he).imp' g fun _ hu => ⟨hu.1, hanti rfl hu.2⟩,
        fun e he => (hlow e he).imp' g fun _ hl => ⟨hl.1, hanti rfl hl.2⟩⟩

/-- Two ends that are both there. -/
def endPairs (left right : Option Expr) : List (Expr × Expr) :=
  (left.bind fun first => right.map fun second => (first, second)).toList

theorem mem_endPairs {first second : Expr} (hfirst : first ∈ leftEnd)
    (hsecond : second ∈ rightEnd) : (first, second) ∈ endPairs leftEnd rightEnd := by
  rw [Option.mem_def] at hfirst hsecond
  simp [endPairs, hfirst, hsecond]

section Ends

variable (hop : op.isPredicate = false)
  (hexact : ∀ pair ∈ endPairs leftEnd rightEnd, Expr.CombinesExactly op pair.1 pair.2)
  (hleft : ∀ e ∈ leftEnd, ∃ l, e.IsNumber l ∧ holdsLeft l)
  (hright : ∀ e ∈ rightEnd, ∃ r, e.IsNumber r ∧ holdsRight r)
  (hresult : ∀ l r, holdsLeft l → holdsRight r → ∀ result ∈ op.compute? l r, holds result)
include hop hexact hleft hright hresult

/-- An end that is computed from two ends. -/
theorem isNumber_bothEnds : ∀ e ∈ bothEnds (Expr.combine op) leftEnd rightEnd,
    ∃ v, e.IsNumber v ∧ holds v := by
  intro e he
  simp only [bothEnds, Option.bind_eq_bind, Option.pure_def, Option.mem_def,
    Option.bind_eq_some_iff, Option.some.injEq] at he
  obtain ⟨first, hfirst, second, hsecond, rfl⟩ := he
  obtain ⟨l, hl, hholds⟩ := hleft first hfirst
  obtain ⟨r, hr, hholds'⟩ := hright second hsecond
  obtain ⟨result, hcompute, hnumber⟩ :=
    (hexact _ (mem_endPairs hfirst hsecond)).isNumber hop hl hr
  exact ⟨result, hnumber, hresult l r hholds hholds' result hcompute⟩

/-- An end that is computed from two ends, or is one of them where the other is missing. -/
theorem isNumber_eitherEnd (hholds : ∀ l, holdsLeft l → holds l)
    (hholds' : ∀ r, holdsRight r → holds r) :
    ∀ e ∈ eitherEnd (Expr.combine op) leftEnd rightEnd, ∃ v, e.IsNumber v ∧ holds v := by
  intro e he
  unfold eitherEnd at he
  split at he
  · exact isNumber_bothEnds hop hexact hleft hright hresult e he
  · obtain ⟨l, hl, hl'⟩ := hleft e he
    exact ⟨l, hl, hholds l hl'⟩
  · obtain ⟨r, hr, hr'⟩ := hright e he
    exact ⟨r, hr, hholds' r hr'⟩

end Ends

end ValueSet

/-- Every variable of an expression that has a value has a set with this value. -/
def Domains.Hold (domains : Domains) (assignment : Assignment) (e : Expr) : Prop :=
  ∀ v, e.mentions v = true → ∀ x, (Expr.var v).eval assignment = .ok x →
    ∃ set, domains v = some set ∧ set.Has x

namespace Assignment

/-- No variable has a value. -/
def empty : Assignment := fun _ => none

/-- Give a variable a value, in place of any it had. -/
def insert (assignment : Assignment) (v : Var) (x : Int) : Assignment :=
  fun other => if other = v then some x else assignment other

variable {assignment : Assignment} {v other : Var} {x : Int}

theorem eval_insert_self (h : v.dtype.contains x = true) :
    (Expr.var v).eval (assignment.insert v x) = .ok x := by
  exact Expr.eval_var_of_contains (if_pos rfl) h

theorem eval_insert_of_ne (h : other ≠ v) :
    (Expr.var other).eval (assignment.insert v x) = (Expr.var other).eval assignment := by
  rw [Expr.eval_var, Expr.eval_var, insert, if_neg h]

end Assignment

namespace Domains

variable {domains : Domains} {assignment : Assignment} {e : Expr} {v : Var} {set : ValueSet}
  {x : Int}

theorem hold_empty (domains : Domains) (e : Expr) : domains.Hold Assignment.empty e :=
  fun _ _ _ hx => nomatch hx

/-- A variable that is added with a set and a value in it. -/
theorem Hold.insert (h : domains.Hold assignment e) (hset : set.Has x)
    (hcontains : v.dtype.contains x = true) :
    (domains.insert v set).Hold (assignment.insert v x) e := by
  intro other hother y hy
  by_cases heq : other = v
  · subst heq
    rw [Assignment.eval_insert_self hcontains, Except.ok.injEq] at hy
    exact ⟨set, if_pos rfl, hy ▸ hset⟩
  · rw [Assignment.eval_insert_of_ne heq] at hy
    obtain ⟨found, hfound, hhas⟩ := h other hother y hy
    exact ⟨found, (if_neg heq).trans hfound, hhas⟩

end Domains

namespace Facts

variable {facts : Facts} {left right set : ValueSet} {x y value : Int} {op : BinaryOp} {e : Expr}

open ValueSet (Has endPairs isNumber_bothEnds isNumber_eitherEnd)

section Sets

variable (hfree : facts.Consistent)
include hfree

theorem proves_lt_number {first second : Expr} (hfirst : first.IsNumber x)
    (hsecond : second.IsNumber y) : facts.proves (first.lt second) = decide (x < y) := by
  obtain ⟨_, rfl, hx⟩ := hfirst.exists_const
  obtain ⟨_, rfl, hy⟩ := hsecond.exists_const
  exact proves_lt_join hfree hx hy

theorem proves_le_number {first second : Expr} (hfirst : first.IsNumber x)
    (hsecond : second.IsNumber y) : facts.proves (first.le second) = decide (x ≤ y) := by
  obtain ⟨_, rfl, hx⟩ := hfirst.exists_const
  obtain ⟨_, rfl, hy⟩ := hsecond.exists_const
  rw [Expr.le, Expr.combine_join _ hx hy]
  exact proves_le hfree

/-- The sign of a point is the sign of the only value. -/
theorem isNumber_of_signedPoint? (h : set.Has y) {positive : Bool}
    (hpoint : facts.signedPoint? set = some (e, positive)) :
    e.IsNumber y ∧ (positive = true → 0 < y) ∧ (positive = false → y < 0) := by
  simp only [signedPoint?, Option.bind_eq_bind, Option.pure_def, Option.bind_eq_some_iff,
    Option.some.injEq, Prod.mk.injEq] at hpoint
  obtain ⟨point, hpoint, sign, hsign, rfl, rfl⟩ := hpoint
  have hnumber := h.isNumber_of_point? hpoint
  have hzero := Expr.isNumber_zero point.dtype
  rw [isPositive?, Expr.gt, proves_lt_number hfree hzero hnumber,
    proves_lt_number hfree hnumber hzero] at hsign
  refine ⟨hnumber, ?_, ?_⟩ <;> rintro rfl <;> grind

/-- The remainders by a positive point. -/
theorem remaindersBy_has (hleft : left.Has x) {divisor zero : Expr} (hdivisor : divisor.IsNumber y)
    (hpos : 0 < y) (hzero : zero.IsNumber 0) :
    (facts.remaindersBy left divisor zero).Has (x.fmod y) := by
  obtain ⟨dtype, rfl, hy⟩ := hdivisor.exists_const
  have hlast : ((Expr.const dtype y).sub (.one dtype)).IsNumber (y - 1) := by
    have hless : dtype.contains (y - 1) = true :=
      DType.contains_of_between dtype.contains_zero hy (by omega) (by omega)
    rw [Expr.one, Expr.literal, DType.truncate_one, Expr.sub,
      Expr.combine_const_of_contains rfl rfl hless]
    exact Expr.isNumber_const hless
  have hwhole : (ValueSet.between zero ((Expr.const dtype y).sub (.one dtype))).Has (x.fmod y) :=
    ValueSet.has_between hzero hlast (Int.fmod_nonneg_of_pos x hpos)
      (Int.le_sub_one_of_lt (Int.fmod_lt_of_pos x hpos))
  unfold remaindersBy
  split
  · rename_i low high hlow hhigh
    obtain ⟨l, hl, hle⟩ := hleft.low low hlow
    obtain ⟨u, hu, hle'⟩ := hleft.high high hhigh
    split
    · rename_i hinside
      rw [Expr.ge, proves_le_number hfree hzero hl, proves_lt_number hfree hu hdivisor,
        Bool.and_eq_true, decide_eq_true_eq, decide_eq_true_eq] at hinside
      rw [Int.fmod_eq_of_lt (by omega) (by omega)]
      exact hleft
    · exact hwhole
  · exact hwhole

end Sets

/-- The ends that an operator combines when its operands are not both points. -/
def computedEnds (facts : Facts) (op : BinaryOp) (left right : ValueSet) : List (Expr × Expr) :=
  match op with
  | .add | .min | .max => endPairs left.min? right.min? ++ endPairs left.max? right.max?
  | .sub => endPairs left.min? right.max? ++ endPairs left.max? right.min?
  | .mul =>
    match facts.signedPoint? right, facts.signedPoint? left with
    | some (factor, _), _ => left.ends.map fun e => (e, factor)
    | none, some (factor, _) => right.ends.map fun e => (factor, e)
    | none, none => []
  | .floorDiv =>
    match facts.signedPoint? right with
    | some (divisor, _) => left.ends.map fun e => (e, divisor)
    | none => []
  | _ => []

/-- The ends that an operator combines. -/
def combinedEnds (facts : Facts) (op : BinaryOp) (left right : ValueSet) : List (Expr × Expr) :=
  match left.point?, right.point? with
  | some first, some second => [(first, second)]
  | _, _ => facts.computedEnds op left right

section Operators

variable (hfree : facts.Consistent) (hleft : left.Has x) (hright : right.Has y)
include hfree hleft hright

theorem productValues_has
    (hends : ∀ pair ∈ facts.computedEnds .mul left right, Expr.CombinesExactly .mul pair.1 pair.2) :
    (facts.productValues left right).Has (x * y) := by
  unfold productValues
  simp only [computedEnds] at hends
  split
  · rename_i factor positive hfactor
    obtain ⟨hnumber, hpos, hneg⟩ := isNumber_of_signedPoint? hfree hright hfactor
    simp only [hfactor, List.forall_mem_map] at hends
    refine hleft.moveEnds (g := (· * y)) (fun e he l hl => ?_)
      (fun hpositive _ _ hab => mul_le_mul_of_nonneg_right hab (hpos hpositive).le)
      (fun hnegative _ _ hab => mul_le_mul_of_nonpos_right hab (hneg hnegative).le)
    obtain ⟨_, hresult, hproduct⟩ := (hends e he).isNumber rfl hl hnumber
    exact Option.some.inj hresult ▸ hproduct
  · rename_i factor positive hnone hfactor
    obtain ⟨hnumber, hpos, hneg⟩ := isNumber_of_signedPoint? hfree hleft hfactor
    simp only [hnone, hfactor, List.forall_mem_map] at hends
    refine hright.moveEnds (g := (x * ·)) (fun e he r hr => ?_)
      (fun hpositive _ _ hab => mul_le_mul_of_nonneg_left hab (hpos hpositive).le)
      (fun hnegative _ _ hab => mul_le_mul_of_nonpos_left hab (hneg hnegative).le)
    obtain ⟨_, hresult, hproduct⟩ := (hends e he).isNumber rfl hnumber hr
    exact Option.some.inj hresult ▸ hproduct
  · exact ValueSet.has_everything _

theorem quotientValues_has {divisor : Expr} {positive : Bool}
    (hdivisor : facts.signedPoint? right = some (divisor, positive))
    (hends : ∀ e ∈ left.ends, Expr.CombinesExactly .floorDiv e divisor) :
    (left.moveEnds positive fun e => e.floorDiv divisor).Has (x.fdiv y) := by
  obtain ⟨hnumber, hpos, hneg⟩ := isNumber_of_signedPoint? hfree hright hdivisor
  refine hleft.moveEnds (g := fun x => x.fdiv y) (fun e he l hl => ?_)
    (fun hpositive _ _ => fdiv_le_fdiv_of_pos (hpos hpositive))
    (fun hnegative _ _ => fdiv_le_fdiv_of_neg (hneg hnegative))
  obtain ⟨_, hresult, hquotient⟩ := (hends e he).isNumber rfl hl hnumber
  obtain ⟨-, rfl⟩ := Word.eq_fdiv_of_floorDiv? hresult
  exact hquotient

/-- Each operator on sets has what the operator computes. -/
theorem binaryValues_has (hop : op.isPredicate = false)
    (hends : ∀ pair ∈ facts.computedEnds op left right, Expr.CombinesExactly op pair.1 pair.2)
    (hvalue : op.compute? x y = some value) (node : Expr) :
    (facts.binaryValues op node left right).Has value := by
  cases op <;> simp only [BinaryOp.compute?, Option.some.injEq] at hvalue
  case add =>
    subst hvalue
    obtain ⟨hlow, hhigh⟩ := List.forall_mem_append.mp hends
    exact ⟨rfl,
      isNumber_bothEnds rfl hlow hleft.low hright.low fun _ _ hl hr _ h =>
        Option.some.inj h ▸ add_le_add hl hr,
      isNumber_bothEnds rfl hhigh hleft.high hright.high fun _ _ hl hr _ h =>
        Option.some.inj h ▸ add_le_add hl hr⟩
  case sub =>
    subst hvalue
    obtain ⟨hlow, hhigh⟩ := List.forall_mem_append.mp hends
    exact ⟨rfl,
      isNumber_bothEnds rfl hlow hleft.low hright.high fun _ _ hl hr _ h =>
        Option.some.inj h ▸ sub_le_sub hl hr,
      isNumber_bothEnds rfl hhigh hleft.high hright.low fun _ _ hl hr _ h =>
        Option.some.inj h ▸ sub_le_sub hl hr⟩
  case mul =>
    subst hvalue
    exact productValues_has hfree hleft hright hends
  case floorDiv =>
    obtain ⟨-, rfl⟩ := Word.eq_fdiv_of_floorDiv? hvalue
    simp only [binaryValues]
    split
    · rename_i hdivisor
      simp only [computedEnds, hdivisor, List.forall_mem_map] at hends
      exact quotientValues_has hfree hleft hright hdivisor hends
    · exact ValueSet.has_everything _
  case floorMod =>
    obtain ⟨-, rfl⟩ := Word.eq_fmod_of_floorMod? hvalue
    simp only [binaryValues]
    split
    · rename_i hdivisor
      obtain ⟨hnumber, hpos, -⟩ := isNumber_of_signedPoint? hfree hright hdivisor
      exact remaindersBy_has hfree hleft hnumber (hpos rfl) (Expr.isNumber_zero _)
    · exact ValueSet.has_everything _
  case min =>
    subst hvalue
    obtain ⟨hlow, hhigh⟩ := List.forall_mem_append.mp hends
    exact ⟨rfl,
      isNumber_bothEnds rfl hlow hleft.low hright.low fun _ _ hl hr _ h =>
        Option.some.inj h ▸ min_le_min hl hr,
      isNumber_eitherEnd rfl hhigh hleft.high hright.high
        (fun _ _ hl hr _ h => Option.some.inj h ▸ min_le_min hl hr)
        (fun _ => (min_le_left x y).trans) fun _ => (min_le_right x y).trans⟩
  case max =>
    subst hvalue
    obtain ⟨hlow, hhigh⟩ := List.forall_mem_append.mp hends
    exact ⟨rfl,
      isNumber_eitherEnd rfl hlow hleft.low hright.low
        (fun _ _ hl hr _ h => Option.some.inj h ▸ max_le_max hl hr)
        (fun _ hl => hl.trans (le_max_left x y)) fun _ hr => hr.trans (le_max_right x y),
      isNumber_bothEnds rfl hhigh hleft.high hright.high fun _ _ hl hr _ h =>
        Option.some.inj h ▸ max_le_max hl hr⟩
  all_goals cases hop

end Operators

/-- Wherever the analysis of an expression computes an end, it is what integers give. -/
def EndsExact (facts : Facts) (domains : Domains) : Expr → Prop
  | .const _ _ | .var _ => True
  | .cast dtype source => EndsExact facts domains source ∧
    ∀ e ∈ (facts.rawValues domains source).ends, (e.castTo dtype).value? = e.value?
  | .neg operand => EndsExact facts domains operand ∧
    ∀ e ∈ (facts.rawValues domains operand).ends, e.negate.value? = e.value?.map (-·)
  | .not operand => EndsExact facts domains operand
  | .binary op lhs rhs => EndsExact facts domains lhs ∧ EndsExact facts domains rhs ∧
    ∀ pair ∈ facts.combinedEnds op (facts.rawValues domains lhs) (facts.rawValues domains rhs),
      Expr.CombinesExactly op pair.1 pair.2

instance decidableEndsExact (facts : Facts) (domains : Domains) :
    DecidablePred (facts.EndsExact domains)
  | .const _ _ | .var _ => inferInstanceAs (Decidable True)
  | .cast dtype source =>
    haveI := decidableEndsExact facts domains source
    inferInstanceAs (Decidable (facts.EndsExact domains source ∧
      ∀ e ∈ (facts.rawValues domains source).ends, (e.castTo dtype).value? = e.value?))
  | .neg operand =>
    haveI := decidableEndsExact facts domains operand
    inferInstanceAs (Decidable (facts.EndsExact domains operand ∧
      ∀ e ∈ (facts.rawValues domains operand).ends, e.negate.value? = e.value?.map (-·)))
  | .not operand => decidableEndsExact facts domains operand
  | .binary op lhs rhs =>
    haveI := decidableEndsExact facts domains lhs
    haveI := decidableEndsExact facts domains rhs
    inferInstanceAs (Decidable (facts.EndsExact domains lhs ∧ facts.EndsExact domains rhs ∧
      ∀ pair ∈ facts.combinedEnds op (facts.rawValues domains lhs) (facts.rawValues domains rhs),
        Expr.CombinesExactly op pair.1 pair.2))

/-- What two nonempty sets are combined to. -/
def combinedValues (facts : Facts) (op : BinaryOp) (node : Expr) (left right : ValueSet) :
    ValueSet :=
  match left.point?, right.point? with
  | some first, some second => .point (.combine op first second)
  | _, _ => facts.binaryValues op node left right

theorem rawValues_binary {domains : Domains} {lhs rhs : Expr}
    (hleft : (facts.rawValues domains lhs).isEmpty = false)
    (hright : (facts.rawValues domains rhs).isEmpty = false) :
    facts.rawValues domains (.binary op lhs rhs) = facts.combinedValues op (.binary op lhs rhs)
      (facts.rawValues domains lhs) (facts.rawValues domains rhs) := by
  simp only [rawValues, hleft, hright, Bool.or_self, Bool.false_eq_true, if_false]
  rfl

/-- An arithmetic operator keeps membership when it combines ends like integers. -/
theorem combinedValues_has (hfree : facts.Consistent) (hleft : left.Has x) (hright : right.Has y)
    (hop : op.isPredicate = false)
    (hends : ∀ pair ∈ facts.combinedEnds op left right, Expr.CombinesExactly op pair.1 pair.2)
    (hvalue : op.compute? x y = some value) (node : Expr) :
    (facts.combinedValues op node left right).Has value := by
  unfold combinedEnds at hends
  unfold combinedValues
  split
  · rename_i first second hfirst hsecond
    simp only [hfirst, hsecond, List.forall_mem_singleton] at hends
    obtain ⟨_, hcompute, hnumber⟩ := hends.isNumber hop (hleft.isNumber_of_point? hfirst)
      (hright.isNumber_of_point? hsecond)
    obtain rfl := Option.some.inj (hvalue.symm.trans hcompute)
    exact ValueSet.has_point hnumber
  · rename_i hpoints
    refine binaryValues_has hfree hleft hright hop ?_ hvalue node
    split at hends
    · rename_i first second hfirst hsecond
      exact absurd hsecond (hpoints first second hfirst)
    · exact hends

variable {domains : Domains} {assignment : Assignment}

/-- The set of an arithmetic expression has its value. -/
theorem rawValues_has (hfree : facts.Consistent) (hhold : domains.Hold assignment e)
    (hformed : e.Formed) (harithmetic : e.IsArithmetic) (hwrapless : e.Wrapless assignment)
    (hends : facts.EndsExact domains e) (hvalue : e.eval assignment = .ok value) :
    (facts.rawValues domains e).Has value := by
  induction e generalizing value with
  | const dtype literal =>
      rw [Expr.eval_const_of_contains hformed, Except.ok.injEq] at hvalue
      exact hvalue ▸ ValueSet.has_point (Expr.isNumber_const hformed)
  | var v =>
      obtain ⟨set, hset, hhas⟩ := hhold v (Expr.mentions_var_self v) value hvalue
      rw [rawValues, hset]
      exact hhas
  | cast dtype source ih =>
      obtain ⟨x, hx, rfl⟩ := Expr.eval_cast_inv hvalue
      rw [DType.truncate_of_contains (hwrapless.2 x hx)]
      refine (ih hhold hformed harithmetic hwrapless.1 hends.1 hx).mapEnds
        fun e he l hl => ⟨Expr.formed_castTo hl.1 dtype, ?_⟩
      exact (hends.2 e he).trans hl.2
  | neg operand ih =>
      obtain ⟨x, hx, rfl⟩ := Expr.eval_neg_inv hvalue
      rw [DType.truncate_of_contains (hwrapless.2 x hx)]
      refine (ih hhold hformed harithmetic hwrapless.1 hends.1 hx).negate
        fun e he l hl => ⟨Expr.formed_negate hl.1, ?_⟩
      rw [hends.2 e he, hl.2]
      rfl
  | not operand ih => exact harithmetic.elim
  | binary op lhs rhs ihl ihr =>
      obtain ⟨hlhs, hrhs, -, -⟩ := hformed
      obtain ⟨hop, harithmetic, harithmetic'⟩ := harithmetic
      obtain ⟨hwrapless, hwrapless', hwithin⟩ := hwrapless
      obtain ⟨hleft, hright, hcombine⟩ := hends
      have hlogical : op.isLogical = false :=
        Bool.eq_false_of_not_eq_true (BinaryOp.not_isLogical hop)
      obtain ⟨x, y, result, hx, hy, hresult, rfl⟩ :=
        Expr.eval_binary_inv_of_not_isLogical hlogical hvalue
      have hdtype : (Expr.binary op lhs rhs).dtype = lhs.dtype := by simp [Expr.dtype, hop]
      rw [hdtype, DType.truncate_of_contains (hwithin x hx y hy result hresult)]
      have hhas := ihl (fun v hv => hhold v (by simp [Expr.mentions_binary, hv])) hlhs harithmetic
        hwrapless hleft hx
      have hhas' := ihr (fun v hv => hhold v (by simp [Expr.mentions_binary, hv])) hrhs
        harithmetic' hwrapless' hright hy
      rw [rawValues_binary hhas.nonempty hhas'.nonempty]
      exact combinedValues_has hfree hhas hhas' hop hcombine hresult _

/-- Simplifying numbers changes nothing. -/
theorem mapEnds_simplify_has (h : set.Has x) : (set.mapEnds facts.simplify).Has x :=
  h.mapEnds fun e _ l hl => by
    obtain ⟨_, rfl, hcontains⟩ := hl.exists_const
    exact Expr.isNumber_const hcontains

/-- The ends that the analysis reports enclose the value too. -/
theorem values_has (hfree : facts.Consistent) (hhold : domains.Hold assignment e)
    (hformed : e.Formed) (harithmetic : e.IsArithmetic) (hwrapless : e.Wrapless assignment)
    (hends : facts.EndsExact domains e) (hvalue : e.eval assignment = .ok value) :
    (facts.values e domains).Has value :=
  mapEnds_simplify_has (rawValues_has hfree hhold hformed harithmetic hwrapless hends hvalue)

end Facts

end LoopNest
