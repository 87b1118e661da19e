/-
# Index arithmetic

Indices are sums, products, quotients and remainders of numbers of one type, built by
the folding constructors. As long as a result fits its type, folding and wrapping
leave no trace: the index evaluates to what the operator computes.

Going back from an exact index to its operands takes some care. Two literals fold
without leaving a node behind that could be called exact, and a negative offset is
turned around, which for the least value of the type gives the same offset again.
-/

import LoopNest.Flow.Basic
import LoopNest.Proofs.Expr.Exact
import LoopNest.Proofs.Facts.Literal

namespace LoopNest.Expr

open Endpoint (IsFinite)

variable {assignment : Assignment} {op : BinaryOp} {lhs rhs e : Expr} {dtype : DType}
  {low x y result : Int}

theorem isFinite_of_contains (h : DType.int32.contains x = true) : IsFinite x := by
  rw [DType.contains_iff, DType.minValue, DType.maxValue] at h
  simp only [IsFinite, Endpoint.posInf, Word.greatest]
  omega

/-- A folded node of numbers evaluates to what the operator computes, wrapped. -/
theorem eval_combine_numbers (hop : op.isPredicate = false) (hlhs : lhs.TypedAt dtype)
    (hrhs : rhs.TypedAt dtype) (hx : lhs.eval assignment = .ok x)
    (hy : rhs.eval assignment = .ok y) (h : op.compute? x y = some result) :
    (combine op lhs rhs).eval assignment = .ok (dtype.truncate result) := by
  have hlogical : op.isLogical = true → lhs.dtype = .bool := fun hlogical =>
    absurd hlogical (BinaryOp.not_isLogical hop)
  apply eval_combine hlhs.wellTyped.formed hrhs.wellTyped.formed
    (hlhs.dtype_eq.trans hrhs.dtype_eq.symm) hlogical
  rw [eval_binary_of_eval hx hy h]
  have hdtype : (binary op lhs rhs).dtype = dtype := by simp [Expr.dtype, hop, hlhs.dtype_eq]
  rw [hdtype]

/-- What fits is what a folded node evaluates to. -/
theorem eval_combine_of_contains (hop : op.isPredicate = false) (hlhs : lhs.TypedAt dtype)
    (hrhs : rhs.TypedAt dtype) (hx : lhs.eval assignment = .ok x)
    (hy : rhs.eval assignment = .ok y) (h : op.compute? x y = some result)
    (hcontains : dtype.contains result = true) :
    (combine op lhs rhs).eval assignment = .ok result := by
  rw [eval_combine_numbers hop hlhs hrhs hx hy h, DType.truncate_of_contains hcontains]

/-- If the expression is a literal at all, then this one. -/
def IsOpenOr (e : Expr) (literal : Int) : Prop :=
  ∀ value ∈ e.value?, value = literal

theorem isOpenOr_const (dtype : DType) (value : Int) : (const dtype value).IsOpenOr value :=
  fun _ h => (Option.some.inj h).symm

theorem IsOpenOr.eq_of_isZero (h : e.IsOpenOr x) (hzero : e.isZero = true) : x = 0 :=
  (h 0 (of_decide_eq_true hzero)).symm

theorem IsOpenOr.eq_of_isOne (h : e.IsOpenOr x) (hone : e.isOne = true) : x = 1 :=
  (h 1 (of_decide_eq_true hone)).symm

/-- A remainder by one is zero. -/
theorem eq_zero_of_floorMod?_one (h : Word.floorMod? x 1 = some result) : result = 0 := by
  simp only [Word.floorMod?, Word.floorDiv?, Word.mul?, one_ne_zero, if_false, Int.fdiv_one,
    Option.bind_eq_bind, Option.bind_eq_some_iff, Word.check_eq_some_iff, mul_one] at h
  obtain ⟨quotient, ⟨-, rfl⟩, product, ⟨-, rfl⟩, -, rfl⟩ := h
  exact sub_self _

/-- An operand that decides a node makes it a literal only when the other operand is one,
or when the node is zero. -/
theorem IsOpenOr.foldNeutral (hlhs : lhs.IsOpenOr x) (hrhs : rhs.IsOpenOr y)
    (hop : op.isPredicate = false) (h : op.compute? x y = some result)
    (hopen : lhs.value? = none ∨ rhs.value? = none) {folded : Expr}
    (hfolded : foldNeutral? op lhs rhs = some folded) : folded.IsOpenOr result := by
  have hnotboth : ∀ {first second : Expr}, (first.value? = none ∨ second.value? = none) →
      ∀ {literal : Int}, second.value? = some literal → first.IsOpenOr result := by
    intro first second hnone literal hsecond value hvalue
    rcases hnone with hnone | hnone
    · rw [hnone] at hvalue
      cases hvalue
    · rw [hsecond] at hnone
      cases hnone
  cases op with
  | add =>
      simp only [foldNeutral?] at hfolded
      split at hfolded
      · exact Option.some.inj hfolded ▸ hnotboth hopen (of_decide_eq_true ‹_›)
      · split at hfolded
        · exact Option.some.inj hfolded ▸ hnotboth hopen.symm (of_decide_eq_true ‹_›)
        · cases hfolded
  | sub =>
      simp only [foldNeutral?, Option.ite_none_right_eq_some, Option.some.injEq] at hfolded
      exact hfolded.2 ▸ hnotboth hopen (of_decide_eq_true hfolded.1)
  | mul =>
      simp only [foldNeutral?] at hfolded
      split at hfolded
      · exact Option.some.inj hfolded ▸ hnotboth hopen (of_decide_eq_true ‹_›)
      · split at hfolded
        · exact Option.some.inj hfolded ▸ hnotboth hopen.symm (of_decide_eq_true ‹_›)
        · split at hfolded
          · rename_i hzero
            have hproduct : result = 0 := by
              rw [← Option.some.inj h]
              rcases (Bool.or_eq_true _ _).mp hzero with hzero | hzero
              · rw [hlhs.eq_of_isZero hzero, zero_mul]
              · rw [hrhs.eq_of_isZero hzero, mul_zero]
            rw [← Option.some.inj hfolded, hproduct]
            simpa [zero, literal] using isOpenOr_const lhs.dtype 0
          · cases hfolded
  | floorDiv =>
      simp only [foldNeutral?, Option.ite_none_right_eq_some, Option.some.injEq] at hfolded
      exact hfolded.2 ▸ hnotboth hopen (of_decide_eq_true hfolded.1)
  | floorMod =>
      simp only [foldNeutral?, Option.ite_none_right_eq_some, Option.some.injEq] at hfolded
      rw [BinaryOp.compute?, hrhs.eq_of_isOne hfolded.1] at h
      rw [← hfolded.2, eq_zero_of_floorMod?_one h]
      simpa [zero, literal] using isOpenOr_const lhs.dtype 0
  | min | max => simp [foldNeutral?] at hfolded
  | lt | le | eq | ne | and | or => cases hop

/-- Folding finds no other literal than the one that the operands compute to. -/
theorem IsOpenOr.combine (hlhs : lhs.IsOpenOr x) (hrhs : rhs.IsOpenOr y)
    (same : lhs.dtype = rhs.dtype) (hop : op.isPredicate = false)
    (h : op.compute? x y = some result) (hcontains : lhs.dtype.contains result = true) :
    (combine op lhs rhs).IsOpenOr result := by
  rw [combine_of_dtype_eq op same, foldNode]
  split
  · rename_i folded hfolded
    simp only [foldLiterals?, Option.bind_eq_bind, Option.pure_def, Option.bind_eq_some_iff,
      Option.some.injEq] at hfolded
    obtain ⟨left, hleft, right, hright, computed, hcomputed, rfl⟩ := hfolded
    rw [hlhs left hleft, hrhs right hright, h, Option.some.injEq] at hcomputed
    rw [← hcomputed, resultType, hop, literal, if_neg (by simp),
      DType.truncate_of_contains hcontains]
    exact isOpenOr_const _ _
  · rename_i hnone
    have hopen : lhs.value? = none ∨ rhs.value? = none := by
      cases hleft : lhs.value? with
      | none => exact .inl rfl
      | some left =>
          cases hright : rhs.value? with
          | none => exact .inr rfl
          | some right =>
              have hleft' := hlhs left hleft
              have hright' := hrhs right hright
              simp [foldLiterals?, hleft, hright, hleft', hright', h] at hnone
    split
    · exact hlhs.foldNeutral hrhs hop h hopen ‹_›
    · unfold keepOffsetPositive
      split <;>
      · intro _ hvalue
        cases hvalue

theorem offsetBy_const (e : Expr) (dtype : DType) (low : Int) :
    e.offsetBy (const dtype low) = if low = 0 then e else e.add (const dtype low) := by
  simp [offsetBy, isZero, value?]

theorem typedAt_const (h : dtype.contains x = true) : (const dtype x).TypedAt dtype :=
  ⟨⟨h, trivial⟩, rfl⟩

theorem TypedAt.offsetBy (h : e.TypedAt dtype) (hlow : dtype.contains low = true) :
    (e.offsetBy (const dtype low)).TypedAt dtype := by
  rw [offsetBy_const]
  split
  · exact h
  · exact h.combine rfl (typedAt_const hlow)

/-- An index that can only be the literal zero can only be the offset it is moved by. -/
theorem IsOpenOr.offsetBy (h : e.IsOpenOr 0) (htyped : e.TypedAt .int32)
    (hlow : DType.int32.contains low = true) :
    (e.offsetBy (const .int32 low)).IsOpenOr low := by
  rw [offsetBy_const]
  split
  · rename_i hzero
    exact hzero ▸ h
  · exact h.combine (isOpenOr_const _ _) htyped.dtype_eq rfl (by rw [BinaryOp.compute?, zero_add])
      (htyped.dtype_eq ▸ hlow)

/-- The operands of an exact node compute to a result that fits. -/
theorem Exact.contains_of_binary (h : (binary op lhs rhs).Exact assignment)
    (hop : op.isPredicate = false) (hlhs : lhs.TypedAt .int32) (hx : lhs.eval assignment = .ok x)
    (hy : rhs.eval assignment = .ok y) (hresult : op.compute? x y = some result) :
    DType.int32.contains result = true := by
  have hlogical : op.isLogical = false :=
    Bool.eq_false_of_not_eq_true (BinaryOp.not_isLogical hop)
  have hwithin := ((h.2 x hx) (BinaryOp.decidedBy?_of_not_isLogical hlogical x)).2 y hy
  rw [← hlhs.dtype_eq]
  exact (hwithin result hresult hop).1

theorem exact_of_value? (hlhs : lhs.TypedAt .int32) (hx : lhs.eval assignment = .ok x)
    {literal : Int} (h : lhs.value? = some literal) : lhs.Exact assignment := by
  have hcontains := eval_contains hx
  rw [eval_of_value? hlhs.wellTyped.formed h, Except.ok.injEq] at hx
  rw [hlhs.dtype_eq, ← hx] at hcontains
  rw [eq_const_of_value? h]
  exact isFinite_of_contains hcontains

/-- An exact sum is the sum of its operands unless both are negative. Zero is the only
literal that the left operand may be; with another one the sum could have wrapped when it
was folded. -/
theorem Exact.of_add (h : (lhs.add rhs).Exact assignment) (hlhs : lhs.TypedAt .int32)
    (hrhs : rhs.TypedAt .int32) (hopen : lhs.IsOpenOr 0) (hx : lhs.eval assignment = .ok x)
    (hy : rhs.eval assignment = .ok y) :
    lhs.Exact assignment ∧ (0 ≤ x ∨ 0 ≤ y → DType.int32.contains (x + y) = true) := by
  have hcontains : DType.int32.contains x = true := hlhs.dtype_eq ▸ eval_contains hx
  have hcontains' : DType.int32.contains y = true := hrhs.dtype_eq ▸ eval_contains hy
  have hvalue : ∀ {literal}, lhs.value? = some literal → x = 0 := fun {literal} hliteral => by
    rw [eval_of_value? hlhs.wellTyped.formed hliteral, hopen literal hliteral] at hx
    exact (Except.ok.inj hx).symm
  rw [add, combine_of_dtype_eq .add (hlhs.dtype_eq.trans hrhs.dtype_eq.symm), foldNode] at h
  split at h
  · rename_i folded hfolded
    simp only [foldLiterals?, Option.bind_eq_bind, Option.bind_eq_some_iff] at hfolded
    obtain ⟨left, hleft, -⟩ := hfolded
    refine ⟨exact_of_value? hlhs hx hleft, fun _ => ?_⟩
    rw [hvalue hleft, zero_add]
    exact hcontains'
  · split at h
    · rename_i folded hfolded
      simp only [foldNeutral?] at hfolded
      split at hfolded
      · rename_i hzero
        obtain rfl : y = 0 := Except.ok.inj (hy.symm.trans (eval_of_isZero hzero))
        rw [add_zero]
        exact ⟨Option.some.inj hfolded ▸ h, fun _ => hcontains⟩
      · split at hfolded
        · rename_i hzero
          have hliteral := of_decide_eq_true hzero
          refine ⟨exact_of_value? hlhs hx hliteral, fun _ => ?_⟩
          rw [hvalue hliteral, zero_add]
          exact hcontains'
        · cases hfolded
    · cases hoffset : oppositeOffset? rhs with
      | none =>
          simp only [keepOffsetPositive, hoffset] at h
          exact ⟨h.1, fun _ => h.contains_of_binary rfl hlhs hx hy rfl⟩
      | some offset =>
          simp only [keepOffsetPositive, hoffset] at h
          obtain ⟨hopposite, hnegative⟩ := eq_neg_of_oppositeOffset? hoffset
          obtain rfl : y = -offset := Except.ok.inj
            (hy.symm.trans (eval_of_value? hrhs.wellTyped.formed hopposite))
          refine ⟨h.1, fun hnonneg => ?_⟩
          have hexact := h.contains_of_binary rfl hlhs hx (y := DType.int32.truncate offset)
            (by rw [eval_literal_wrapped, hlhs.dtype_eq]) rfl
          -- Only the opposite of the least value does not fit, and it makes the sum too great.
          by_cases hfits : DType.int32.contains offset = true
          · rwa [DType.truncate_of_contains hfits] at hexact
          · have hleast : offset = 2147483648 := by
              rw [DType.contains_iff, DType.minValue, DType.maxValue] at hcontains' hfits
              omega
            rw [hleast, show DType.int32.truncate 2147483648 = -2147483648 by decide,
              DType.contains_iff, DType.maxValue] at hexact
            omega

/-- An exact product with a positive literal is the product. -/
theorem Exact.of_mul_const {factor : Int} (h : (lhs.mul (const .int32 factor)).Exact assignment)
    (hlhs : lhs.TypedAt .int32) (hfactor : 1 ≤ factor)
    (hcontains : DType.int32.contains factor = true) (hopen : lhs.IsOpenOr 0)
    (hx : lhs.eval assignment = .ok x) : DType.int32.contains (x * factor) = true := by
  have hvalue : ∀ {literal}, lhs.value? = some literal → x = 0 := fun {literal} hliteral => by
    rw [eval_of_value? hlhs.wellTyped.formed hliteral, hopen literal hliteral] at hx
    exact (Except.ok.inj hx).symm
  have hzero : x = 0 → DType.int32.contains (x * factor) = true := fun hx => by
    rw [hx, zero_mul]
    exact DType.contains_zero _
  rw [mul, combine_of_dtype_eq .mul hlhs.dtype_eq, foldNode] at h
  split at h
  · rename_i folded hfolded
    simp only [foldLiterals?, Option.bind_eq_bind, Option.bind_eq_some_iff] at hfolded
    obtain ⟨left, hleft, -⟩ := hfolded
    exact hzero (hvalue hleft)
  · split at h
    · rename_i folded hfolded
      simp only [foldNeutral?] at hfolded
      split at hfolded
      · rename_i hone
        obtain rfl : factor = 1 := Option.some.inj (of_decide_eq_true hone)
        rw [mul_one]
        exact hlhs.dtype_eq ▸ eval_contains hx
      · split at hfolded
        · rename_i hone
          exact absurd (hopen 1 (of_decide_eq_true hone)) one_ne_zero
        · split at hfolded
          · rename_i hany
            rcases (Bool.or_eq_true _ _).mp hany with hleft | hright
            · exact hzero (hvalue (of_decide_eq_true hleft))
            · have hnone : factor = 0 := Option.some.inj (of_decide_eq_true hright)
              omega
          · cases hfolded
    · exact h.contains_of_binary rfl hlhs hx
        (eval_const_of_contains hcontains) rfl

theorem eval_floorDiv_const {divisor : Int} (htyped : e.TypedAt dtype) (hpos : 1 ≤ divisor)
    (hcontains : dtype.contains divisor = true) (hx : e.eval assignment = .ok x) :
    (e.floorDiv (const dtype divisor)).eval assignment = .ok (x / divisor) := by
  have hfits : dtype.contains x = true := htyped.dtype_eq ▸ eval_contains hx
  exact eval_combine_of_contains rfl htyped (typedAt_const hcontains) hx
    (eval_const_of_contains hcontains)
    (Word.floorDiv?_of_pos (DType.fits_of_contains hfits) (by omega))
    (DType.contains_ediv hfits (by omega))

theorem eval_floorMod_const {divisor : Int} (htyped : e.TypedAt dtype) (hpos : 1 ≤ divisor)
    (hcontains : dtype.contains divisor = true) (hx : e.eval assignment = .ok x)
    (hdefined : Word.floorMod? x divisor = some (x % divisor)) :
    (e.floorMod (const dtype divisor)).eval assignment = .ok (x % divisor) :=
  eval_combine_of_contains rfl htyped (typedAt_const hcontains) hx
    (eval_const_of_contains hcontains) hdefined (DType.contains_emod hcontains (by omega) x)

/-- A number that is not negative leaves a remainder by every literal of its type. -/
theorem eval_floorMod_const_of_nonneg {divisor : Int} (htyped : e.TypedAt dtype)
    (hpos : 1 ≤ divisor) (hcontains : dtype.contains divisor = true)
    (hx : e.eval assignment = .ok x) (hnonneg : 0 ≤ x) :
    (e.floorMod (const dtype divisor)).eval assignment = .ok (x % divisor) := by
  have hfits : dtype.contains x = true := htyped.dtype_eq ▸ eval_contains hx
  exact eval_floorMod_const htyped hpos hcontains hx (Word.floorMod?_of_nonneg hnonneg
    (DType.fits_of_contains hfits) (DType.fits_of_contains hcontains) hpos)

/-- An exact index that was moved by an offset is their sum unless it is negative. -/
theorem Exact.of_offsetBy (h : (e.offsetBy (const .int32 low)).Exact assignment)
    (htyped : e.TypedAt .int32) (hlow : DType.int32.contains low = true) (hopen : e.IsOpenOr 0)
    (hx : e.eval assignment = .ok x) :
    e.Exact assignment ∧ (0 ≤ x → DType.int32.contains (x + low) = true ∧
      (e.offsetBy (const .int32 low)).eval assignment = .ok (x + low)) := by
  rw [offsetBy_const] at h ⊢
  split at h
  · rename_i hzero
    rw [hzero, add_zero, if_pos rfl]
    exact ⟨h, fun _ => ⟨htyped.dtype_eq ▸ eval_contains hx, hx⟩⟩
  · rename_i hzero
    rw [if_neg hzero]
    have hvalue : (const .int32 low).eval assignment = .ok low := eval_const_of_contains hlow
    obtain ⟨hexact, hcontains⟩ := h.of_add htyped (typedAt_const hlow) hopen hx hvalue
    refine ⟨hexact, fun hnonneg => ⟨hcontains (.inl hnonneg), ?_⟩⟩
    exact eval_combine_of_contains rfl htyped (typedAt_const hlow) hx hvalue rfl
      (hcontains (.inl hnonneg))

theorem IsOpenOr.mul_const (h : lhs.IsOpenOr 0) (htyped : lhs.TypedAt .int32) (factor : Int) :
    (lhs.mul (const .int32 factor)).IsOpenOr 0 :=
  h.combine (isOpenOr_const _ _) htyped.dtype_eq rfl (by rw [BinaryOp.compute?, zero_mul])
    (DType.contains_zero _)

/-- The index of a split loop before it is moved to the start of its range. -/
theorem IsOpenOr.mul_const_add (hlhs : lhs.IsOpenOr 0) (hrhs : rhs.IsOpenOr 0)
    (htyped : lhs.TypedAt .int32) (htyped' : rhs.TypedAt .int32) {factor : Int}
    (hfactor : DType.int32.contains factor = true) :
    ((lhs.mul (const .int32 factor)).add rhs).IsOpenOr 0 := by
  have hproduct : (lhs.mul (const .int32 factor)).TypedAt .int32 :=
    htyped.combine rfl (typedAt_const hfactor)
  exact (hlhs.mul_const htyped factor).combine hrhs (hproduct.dtype_eq.trans htyped'.dtype_eq.symm)
    rfl (by rw [BinaryOp.compute?, add_zero]) (DType.contains_zero _)

/-- An index that is put together from two numbers has the value that they make, if that is a
value of the type. -/
theorem eval_mul_const_add {factor : Int} (hlhs : lhs.TypedAt dtype) (hrhs : rhs.TypedAt dtype)
    (hfactor : dtype.contains factor = true) (hx : lhs.eval assignment = .ok x)
    (hy : rhs.eval assignment = .ok y) (hproduct : 0 ≤ x * factor) (hnonneg : 0 ≤ y)
    (hcontains : dtype.contains (x * factor + y) = true) :
    ((lhs.mul (const dtype factor)).add rhs).eval assignment = .ok (x * factor + y) := by
  have hconst := typedAt_const hfactor
  have hfits : dtype.contains (x * factor) = true :=
    DType.contains_of_between (DType.contains_zero _) hcontains hproduct (by omega)
  have hmul : (lhs.mul (const dtype factor)).eval assignment = .ok (x * factor) :=
    eval_combine_of_contains rfl hlhs hconst hx (eval_const_of_contains hfactor) rfl hfits
  exact eval_combine_of_contains rfl (hlhs.combine rfl hconst) hrhs hmul hy rfl hcontains

/-- An exact index that is put together from the two loops of a split. -/
theorem Exact.eval_mul_const_add {factor : Int}
    (h : (((lhs.mul (const .int32 factor)).add rhs).offsetBy (const .int32 low)).Exact assignment)
    (hlhs : lhs.TypedAt .int32) (hrhs : rhs.TypedAt .int32) (hopen : lhs.IsOpenOr 0)
    (hopen' : rhs.IsOpenOr 0) (hlow : DType.int32.contains low = true) (hfactor : 1 ≤ factor)
    (hcontains : DType.int32.contains factor = true) (hx : lhs.eval assignment = .ok x)
    (hy : rhs.eval assignment = .ok y) (hnonneg : 0 ≤ y) :
    ((lhs.mul (const .int32 factor)).add rhs).eval assignment = .ok (x * factor + y) := by
  have hconst := typedAt_const hcontains
  have htyped : (lhs.mul (const .int32 factor)).TypedAt .int32 := hlhs.combine rfl hconst
  have hproduct : (lhs.mul (const .int32 factor)).eval assignment =
      .ok (DType.int32.truncate (x * factor)) :=
    eval_combine_numbers rfl hlhs hconst hx (eval_const_of_contains hcontains) rfl
  -- The value of the sum is not known yet, but the sum has one and is exact.
  have hexact := (h.of_offsetBy (htyped.combine rfl hrhs) hlow
    (hopen.mul_const_add hopen' hlhs hrhs hcontains)
    (eval_combine_numbers (show BinaryOp.add.isPredicate = false from rfl) htyped hrhs hproduct
      hy rfl)).1
  obtain ⟨hexact, hsum⟩ := hexact.of_add htyped hrhs (hopen.mul_const hlhs factor) hproduct hy
  rw [DType.truncate_of_contains (hexact.of_mul_const hlhs hfactor hcontains hopen hx)]
    at hproduct hsum
  exact eval_combine_of_contains rfl htyped hrhs hproduct hy rfl (hsum (.inr hnonneg))

end LoopNest.Expr
