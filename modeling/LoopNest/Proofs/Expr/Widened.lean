/-
# Indices among wider literals

An extent may be a literal of another type than the index that it is combined with. The two
then meet in a type that holds every number of 32 bits, and wrapping into such a type keeps
the residue modulo the number of those. So an index that is put together from indices of 32
bits and literals of any types has, once it is viewed at 32 bits again, the residue of the
integer that it stands for.
-/

import LoopNest.Proofs.Facts.Membership
import LoopNest.Proofs.Expr.Index

namespace LoopNest

namespace DType

variable {dtype left right : DType} {value : Int}

/-- The type holds every number of 32 bits. -/
def IsWide (dtype : DType) : Prop :=
  int32.promotesTo dtype = true

instance (dtype : DType) : Decidable dtype.IsWide :=
  inferInstanceAs (Decidable (int32.promotesTo dtype = true))

theorem IsWide.contains (h : dtype.IsWide) (hvalue : int32.contains value = true) :
    dtype.contains value = true :=
  contains_of_promotesTo h hvalue

theorem IsWide.truncate_modEq (h : dtype.IsWide) (value : Int) :
    dtype.truncate value ≡ value [ZMOD int32.modulus] := by
  have hwide : dtype ≠ .bool ∧ int32.modulus ∣ dtype.modulus := by
    revert h
    cases dtype <;> decide
  exact (DType.truncate_modEq hwide.1 value).of_dvd hwide.2

theorem IsWide.join_left (h : left.IsWide) (right : DType) : (left.join right).IsWide := by
  revert h
  cases left <;> cases right <;> decide

theorem isWide_int32 : int32.IsWide := rfl

end DType

namespace Expr

variable {assignment : Assignment} {e min lhs rhs : Expr} {op : BinaryOp}
  {x y low exact result : Int} {dtype : DType}

/-- Arithmetic nodes are well typed, whatever the types of their operands are. -/
theorem wellTyped_combine_arithmetic (hop : op.isPredicate = false) (hlhs : lhs.WellTyped)
    (hrhs : rhs.WellTyped) : (combine op lhs rhs).WellTyped := by
  have hlogical := BinaryOp.not_isLogical hop
  have hpromoted : (promote lhs rhs).1.WellTyped ∧ (promote lhs rhs).2.WellTyped := by
    unfold promote
    split
    · exact ⟨hlhs, hrhs⟩
    · split
      · exact ⟨(TypedAt.castTo hlhs _).wellTyped, hrhs⟩
      · exact ⟨hlhs, (TypedAt.castTo hrhs _).wellTyped⟩
      · exact ⟨(TypedAt.castTo hlhs _).wellTyped, (TypedAt.castTo hrhs _).wellTyped⟩
  rw [← combine_promote]
  exact wellTyped_combine (dtype_promote lhs rhs) (fun h => absurd h hlogical) hpromoted.1
    hpromoted.2

theorem wellTyped_of_isNumber (h : e.IsNumber x) : e.WellTyped := by
  obtain ⟨_, rfl, hcontains⟩ := h.exists_const
  exact ⟨hcontains, trivial⟩

theorem IsNumber.eval (h : e.IsNumber x) : e.eval assignment = .ok x :=
  eval_of_value? h.1 h.2

/-- An operand of a wide type meets another one, or a literal, in a wide type. -/
theorem exists_promote (hlhs : lhs.WellTyped) (hrhs : rhs.WellTyped) (hwide : lhs.dtype.IsWide)
    (hother : rhs.dtype.IsWide ∨ rhs.isConst = true) (hx : lhs.eval assignment = .ok x)
    (hy : rhs.eval assignment = .ok y) :
    ∃ dtype : DType, dtype.IsWide ∧ (promote lhs rhs).1.TypedAt dtype ∧
      (promote lhs rhs).2.TypedAt dtype ∧
      (promote lhs rhs).1.eval assignment = .ok (dtype.truncate x) ∧
      (promote lhs rhs).2.eval assignment = .ok (dtype.truncate y) := by
  have hself : ∀ {e : Expr} {x : Int}, e.eval assignment = .ok x →
      e.eval assignment = .ok (e.dtype.truncate x) := fun he => by
    rw [he, DType.truncate_of_contains (eval_contains he)]
  have hcast : ∀ {e : Expr} {x : Int}, e.WellTyped → e.eval assignment = .ok x →
      ∀ dtype, (e.castTo dtype).eval assignment = .ok (dtype.truncate x) :=
    fun hwell he dtype => eval_castTo hwell.formed he dtype
  unfold promote
  split
  · rename_i hsame
    exact ⟨lhs.dtype, hwide, ⟨hlhs, rfl⟩, ⟨hrhs, hsame.symm⟩, hself hx, hsame ▸ hself hy⟩
  · split
    · rename_i hopen
      have hwide' := hother.resolve_right (by simp [hopen])
      exact ⟨rhs.dtype, hwide', .castTo hlhs _, ⟨hrhs, rfl⟩, hcast hlhs hx _, hself hy⟩
    · exact ⟨lhs.dtype, hwide, ⟨hlhs, rfl⟩, .castTo hrhs _, hself hx, hcast hrhs hy _⟩
    · exact ⟨_, hwide.join_left _, .castTo hlhs _, .castTo hrhs _, hcast hlhs hx _,
        hcast hrhs hy _⟩

/-- The value of the expression has the residue of an exact integer. -/
structure Widens (assignment : Assignment) (e : Expr) (exact : Int) : Prop where
  wellTyped : e.WellTyped
  wide : e.dtype.IsWide
  eval : ∃ value, e.eval assignment = .ok value ∧ value ≡ exact [ZMOD DType.int32.modulus]

theorem TypedAt.widens (h : e.TypedAt .int32) (hx : e.eval assignment = .ok x) :
    e.Widens assignment x :=
  ⟨h.wellTyped, h.dtype_eq ▸ DType.isWide_int32, x, hx, rfl⟩

/-- What can be joined to an operand of a wide type. -/
theorem Widens.joinable (h : e.Widens assignment exact ∨ e.IsNumber exact) :
    e.WellTyped ∧ (e.dtype.IsWide ∨ e.isConst = true) ∧
      ∃ value, e.eval assignment = .ok value ∧ value ≡ exact [ZMOD DType.int32.modulus] := by
  rcases h with h | h
  · exact ⟨h.wellTyped, .inl h.wide, h.eval⟩
  · exact ⟨wellTyped_of_isNumber h, .inr (by simp [isConst, h.2]), exact, h.eval, rfl⟩

/-- An operator that is defined everywhere and respects residues. -/
theorem Widens.combine {compute : Int → Int → Int} (hop : op.isPredicate = false)
    (hcompute : ∀ left right, op.compute? left right = some (compute left right))
    (hcongr : ∀ {n left left' right right' : Int}, left ≡ left' [ZMOD n] →
      right ≡ right' [ZMOD n] → compute left right ≡ compute left' right' [ZMOD n])
    (hlhs : lhs.Widens assignment x) (hrhs : rhs.Widens assignment y ∨ rhs.IsNumber y) :
    (Expr.combine op lhs rhs).Widens assignment (compute x y) := by
  obtain ⟨left, hleft, hresidue⟩ := hlhs.eval
  obtain ⟨hwell, hother, right, hright, hresidue'⟩ := Widens.joinable hrhs
  obtain ⟨dtype, hwide, htyped, htyped', hvalue, hvalue'⟩ :=
    exists_promote hlhs.wellTyped hwell hlhs.wide hother hleft hright
  have hcombined : (Expr.combine op lhs rhs).TypedAt dtype :=
    combine_promote op lhs rhs ▸ htyped.combine hop htyped'
  have heval := eval_combine_numbers hop htyped htyped' hvalue hvalue' (hcompute _ _)
  rw [combine_promote] at heval
  refine ⟨hcombined.wellTyped, hcombined.dtype_eq ▸ hwide, _, heval,
    (hwide.truncate_modEq _).trans (hcongr ?_ ?_)⟩
  · exact (hwide.truncate_modEq _).trans hresidue
  · exact (hwide.truncate_modEq _).trans hresidue'

theorem Widens.add (hlhs : lhs.Widens assignment x)
    (hrhs : rhs.Widens assignment y ∨ rhs.IsNumber y) : (lhs.add rhs).Widens assignment (x + y) :=
  .combine rfl (fun _ _ => rfl) Int.ModEq.add hlhs hrhs

theorem Widens.mul (hlhs : lhs.Widens assignment x)
    (hrhs : rhs.Widens assignment y ∨ rhs.IsNumber y) : (lhs.mul rhs).Widens assignment (x * y) :=
  .combine rfl (fun _ _ => rfl) Int.ModEq.mul hlhs hrhs

theorem Widens.offsetBy (h : e.Widens assignment x) (hmin : min.IsNumber y) :
    (e.offsetBy min).Widens assignment (x + y) := by
  rw [Expr.offsetBy]
  split
  · rename_i hzero
    obtain rfl : y = 0 := Option.some.inj (hmin.2.symm.trans (of_decide_eq_true hzero))
    rwa [add_zero]
  · exact h.add (.inr hmin)

/-- Viewed at 32 bits, the expression has the wrapped exact integer for its value. -/
theorem Widens.castTo (h : e.Widens assignment x) :
    (e.castTo .int32).TypedAt .int32 ∧
      (e.castTo .int32).eval assignment = .ok (DType.int32.truncate x) := by
  obtain ⟨value, hvalue, hresidue⟩ := h.eval
  refine ⟨.castTo h.wellTyped _, ?_⟩
  rw [eval_castTo h.wellTyped.formed hvalue, DType.truncate_congr hresidue]

/-- An operator on a number of 32 bits and a literal, which may be of another type, if bringing
them to one type leaves the literal as it is. -/
theorem TypedAt.widens_combine (hop : op.isPredicate = false) (hlhs : lhs.TypedAt .int32)
    (hx : lhs.eval assignment = .ok x) (hrhs : rhs.IsNumber y)
    (hkept : (promote lhs rhs).2.value? = some y) (hresult : op.compute? x y = some result) :
    (Expr.combine op lhs rhs).Widens assignment result := by
  have hcontains : DType.int32.contains x = true := hlhs.dtype_eq ▸ eval_contains hx
  obtain ⟨dtype, hwide, htyped, htyped', hvalue, -⟩ :=
    exists_promote hlhs.wellTyped (wellTyped_of_isNumber hrhs)
      (hlhs.dtype_eq ▸ DType.isWide_int32) (.inr (by simp [isConst, hrhs.2])) hx hrhs.eval
  have hvalue' : (promote lhs rhs).2.eval assignment = .ok y :=
    eval_of_value? htyped'.wellTyped.formed hkept
  rw [DType.truncate_of_contains (hwide.contains hcontains)] at hvalue
  have hcombined : (Expr.combine op lhs rhs).TypedAt dtype :=
    combine_promote op lhs rhs ▸ htyped.combine hop htyped'
  have heval := eval_combine_numbers hop htyped htyped' hvalue hvalue' hresult
  rw [combine_promote] at heval
  exact ⟨hcombined.wellTyped, hcombined.dtype_eq ▸ hwide, _, heval, hwide.truncate_modEq result⟩

theorem wellTyped_offsetBy (h : e.WellTyped) (hmin : min.IsNumber low) :
    (e.offsetBy min).WellTyped := by
  rw [Expr.offsetBy]
  split
  · exact h
  · exact wellTyped_combine_arithmetic rfl h (wellTyped_of_isNumber hmin)

/-- A literal offset that is zero or of the type of the index keeps the type. -/
theorem TypedAt.offsetBy_number (h : e.TypedAt .int32) (hmin : min.IsNumber low)
    (hstart : low = 0 ∨ min.dtype = .int32) : (e.offsetBy min).TypedAt .int32 := by
  rw [Expr.offsetBy]
  split
  · exact h
  · rename_i hzero
    have hnonzero : low ≠ 0 := by
      rintro rfl
      exact hzero (decide_eq_true hmin.2)
    exact h.combine rfl ⟨wellTyped_of_isNumber hmin, hstart.resolve_left hnonzero⟩

theorem Widens.eval_eq (h : e.Widens assignment x) (htyped : e.TypedAt .int32) :
    e.eval assignment = .ok (DType.int32.truncate x) := by
  rw [← castTo_of_dtype_eq htyped.dtype_eq]
  exact h.castTo.2

section Open

variable (hopen : e.value? = none)
include hopen

/-- A literal takes the type of a partner that is no literal. -/
theorem dtype_combine_number (hop : op.isPredicate = false) (hrhs : rhs.IsNumber y) :
    (combine op e rhs).dtype = e.dtype := by
  have hlogical := BinaryOp.not_isLogical hop
  have hpromote : (promote e rhs).1 = e := by
    unfold promote
    split
    · rfl
    · simp [isConst, hopen, hrhs.2]
  rw [← combine_promote, dtype_combine (dtype_promote e rhs) fun h => absurd h hlogical, hpromote,
    resultType, hop]
  rfl

/-- A sum with something that is no literal is none either. -/
theorem value?_add_of_open (same : lhs.dtype = e.dtype) : (lhs.add e).value? = none := by
  have hzero : e.isZero = false := by simp [isZero, hopen]
  rw [add, combine_of_dtype_eq .add same, foldNode]
  split
  · rename_i folded hfolded
    simp [foldLiterals?, hopen] at hfolded
  · split
    · rename_i folded hfolded
      rw [foldNeutral?, hzero] at hfolded
      simp only [Bool.false_eq_true, if_false, Option.ite_none_right_eq_some,
        Option.some.injEq] at hfolded
      exact hfolded.2 ▸ hopen
    · unfold keepOffsetPositive
      split <;> rfl

end Open

end Expr

end LoopNest
