/-
# Constraints that say nothing

A constraint bounds a variable by comparing the bare variable with something else. A
comparison between literals and variables that were moved by an offset therefore says
nothing, and it says no more once it is simplified.
-/

import LoopNest.Proofs.Expr.Index

namespace LoopNest

namespace Expr

variable {e lhs rhs : Expr} {op : BinaryOp} {v : Var} {low x : Int}

theorem inert_literal (dtype : DType) (value : Int) : (literal dtype value).Inert :=
  fun _ _ => rfl

/-- A comparison without a bare variable. -/
theorem inert_binary (hop : op = .le ∨ op = .lt) (hlhs : lhs.var? = none)
    (hrhs : rhs.var? = none) : (binary op lhs rhs).Inert := by
  intro ofOther v
  rcases hop with rfl | rfl <;> simp [Bound.implied?, hlhs, hrhs]

theorem inert_combine (hop : op = .le ∨ op = .lt) (hleft : lhs.TypedAt .int32)
    (hright : rhs.TypedAt .int32) (hlhs : lhs.var? = none) (hrhs : rhs.var? = none) :
    (combine op lhs rhs).Inert := by
  have hpredicate : op.isPredicate = true := by rcases hop with rfl | rfl <;> rfl
  have hlogical : op.isLogical = true → lhs.dtype = .bool := by rcases hop with rfl | rfl <;> nofun
  have hfolded : Folded op lhs rhs (combine op lhs rhs) :=
    folded_combine (hleft.dtype_eq.trans hright.dtype_eq.symm) hlogical
  have hresult : resultType op lhs.dtype ≠ lhs.dtype := by
    rw [resultType, if_pos hpredicate, hleft.dtype_eq]
    decide
  generalize combine op lhs rhs = folded at hfolded ⊢
  cases hfolded with
  | literal value => exact inert_literal _ value
  | left same => exact absurd same hresult
  | right same => exact absurd same hresult
  | node => exact inert_binary hop hlhs hrhs
  | offset turned value before after => simp [hpredicate] at before

theorem inert_and_iff : (binary .and lhs rhs).Inert ↔ lhs.Inert ∧ rhs.Inert := by
  constructor
  · intro h
    refine ⟨fun ofOther v => ?_, fun ofOther v => ?_⟩ <;>
      have hboth := h ofOther v <;>
      rw [Bound.implied?] at hboth <;>
      cases hleft : Bound.implied? ofOther v lhs <;>
      cases hright : Bound.implied? ofOther v rhs <;>
      simp_all [Bound.both?]
  · rintro ⟨hlhs, hrhs⟩ ofOther v
    rw [Bound.implied?, hlhs ofOther v, hrhs ofOther v, Bound.both?]

theorem Inert.and (hleft : lhs.TypedAt .bool) (hright : rhs.TypedAt .bool) (hlhs : lhs.Inert)
    (hrhs : rhs.Inert) : (lhs.and rhs).Inert := by
  have hfolded : Folded .and lhs rhs (lhs.and rhs) :=
    folded_combine (hleft.dtype_eq.trans hright.dtype_eq.symm) fun _ => hleft.dtype_eq
  generalize lhs.and rhs = folded at hfolded ⊢
  cases hfolded with
  | literal value => exact inert_literal _ value
  | left same => exact hlhs
  | right same => exact hrhs
  | node => exact inert_and_iff.mpr ⟨hlhs, hrhs⟩
  | offset turned value before after => cases before

/-- The conjuncts of a constraint that says nothing say nothing. -/
theorem Inert.conjuncts (h : e.Inert) : ∀ conjunct ∈ e.conjuncts, conjunct.Inert := by
  induction e with
  | const dtype value =>
      intro conjunct hconjunct
      rw [Expr.conjuncts] at hconjunct
      split at hconjunct
      · rw [List.mem_singleton.mp hconjunct]
        exact h
      · cases hconjunct
  | binary op lhs rhs ihl ihr =>
      by_cases hop : op = .and
      · subst hop
        obtain ⟨hlhs, hrhs⟩ := inert_and_iff.mp h
        intro conjunct hconjunct
        rcases List.mem_append.mp hconjunct with hconjunct | hconjunct
        · exact ihl hlhs conjunct hconjunct
        · exact ihr hrhs conjunct hconjunct
      · have hself : (binary op lhs rhs).conjuncts = [binary op lhs rhs] := by
          cases op <;> first | rfl | exact absurd rfl hop
        rw [hself, List.forall_mem_singleton]
        exact h
  | _ =>
      rw [Expr.conjuncts, List.forall_mem_singleton]
      · exact h
      all_goals nofun

/-- What is not zero where all variables are is not a bare variable. -/
theorem var?_eq_none_of_eval (h : e.eval (fun _ => some 0) = .ok x) (hx : x ≠ 0) :
    e.var? = none := by
  cases e with
  | var v =>
      have hzero := Except.ok.inj (h.symm.trans (congrArg Except.ok v.dtype.truncate_zero))
      exact absurd hzero hx
  | _ => rfl

/-- A variable that is moved by an offset becomes a node over the variable and a literal. -/
theorem exists_add_const (hv : v.dtype = .int32) (hlow : DType.int32.contains low = true)
    (hne : low ≠ 0) :
    ∃ op k, (op = .add ∨ op = .sub) ∧ DType.int32.contains k = true ∧
      (var v).add (const .int32 low) = binary op (var v) (const .int32 k) := by
  have same : (var v).dtype = (const .int32 low).dtype := hv
  have hfold : (var v).add (const .int32 low) =
      keepOffsetPositive .add (var v) (const .int32 low) := by
    rw [add, combine_of_dtype_eq _ same, foldNode]
    simp [foldLiterals?, foldNeutral?, isZero, value?, hne]
  rw [hfold]
  cases hopposite : oppositeOffset? (const .int32 low) with
  | some offset =>
      refine ⟨.sub, DType.int32.truncate offset, .inr rfl, DType.contains_truncate _ _, ?_⟩
      simp only [keepOffsetPositive, hopposite, literal, dtype, hv]
  | none =>
      refine ⟨.add, low, .inl rfl, hlow, ?_⟩
      simp only [keepOffsetPositive, hopposite]

end Expr

namespace Facts

variable {e lhs rhs index : Expr} {op : BinaryOp} {v : Var} {low extent : Int}

/-- An expression stays or becomes a literal. -/
theorem collapse_cases (facts : Facts) (e : Expr) :
    facts.collapse e = e ∨ ∃ value, facts.collapse e = .literal e.dtype value := by
  unfold collapse
  split
  · exact .inl rfl
  · simp only
    split
    · exact .inr ⟨_, rfl⟩
    · exact .inl rfl

theorem inert_collapse (facts : Facts) (h : e.Inert) : (facts.collapse e).Inert := by
  rcases facts.collapse_cases e with hkept | ⟨value, hliteral⟩
  · rwa [hkept]
  · rw [hliteral]
    exact Expr.inert_literal _ _

theorem var?_collapse (facts : Facts) (h : e.var? = none) : (facts.collapse e).var? = none := by
  rcases facts.collapse_cases e with hkept | ⟨value, hliteral⟩
  · rwa [hkept]
  · rw [hliteral]
    rfl

theorem inert_simplifyComparison (facts : Facts) (hop : op = .le ∨ op = .lt)
    (hleft : lhs.TypedAt .int32) (hright : rhs.TypedAt .int32) (hlhs : lhs.var? = none)
    (hrhs : rhs.var? = none) : (facts.simplifyComparison op lhs rhs).Inert := by
  unfold simplifyComparison
  split
  · exact Expr.inert_combine hop hleft hright hlhs hrhs
  · split
    · exact Expr.inert_literal _ _
    · exact Expr.inert_combine hop hleft hright hlhs hrhs

/-- A simplified comparison says nothing if neither side becomes a bare variable. -/
theorem inert_simplify_combine (facts : Facts) (hop : op = .le ∨ op = .lt)
    (hleft : lhs.TypedAt .int32) (hright : rhs.TypedAt .int32)
    (hlhs : (facts.simplify lhs).var? = none) (hrhs : (facts.simplify rhs).var? = none) :
    (facts.simplify (.combine op lhs rhs)).Inert := by
  have hpredicate : op.isPredicate = true := by rcases hop with rfl | rfl <;> rfl
  have hfolded : Expr.Folded op lhs rhs (.combine op lhs rhs) :=
    Expr.folded_combine (hleft.dtype_eq.trans hright.dtype_eq.symm)
      (by rcases hop with rfl | rfl <;> nofun)
  have hresult : Expr.resultType op lhs.dtype ≠ lhs.dtype := by
    rw [Expr.resultType, if_pos hpredicate, hleft.dtype_eq]
    decide
  generalize Expr.combine op lhs rhs = folded at hfolded ⊢
  cases hfolded with
  | literal value => exact Expr.inert_literal _ _
  | left same => exact absurd same hresult
  | right same => exact absurd same hresult
  | node =>
      have hnode : facts.simplify (.binary op lhs rhs) =
          facts.collapse (facts.simplifyComparison op (facts.simplify lhs) (facts.simplify rhs)) := by
        rcases hop with rfl | rfl <;> rfl
      rw [hnode]
      exact facts.inert_collapse (facts.inert_simplifyComparison hop
        (hleft.dtype_eq ▸ facts.typedAt_simplify hleft.wellTyped)
        (hright.dtype_eq ▸ facts.typedAt_simplify hright.wellTyped) hlhs hrhs)
  | offset turned value before after => simp [hpredicate] at before

theorem inert_simplify_and (facts : Facts) (hleft : lhs.TypedAt .bool) (hright : rhs.TypedAt .bool)
    (hlhs : (facts.simplify lhs).Inert) (hrhs : (facts.simplify rhs).Inert) :
    (facts.simplify (lhs.and rhs)).Inert := by
  have hfolded : Expr.Folded .and lhs rhs (lhs.and rhs) :=
    Expr.folded_combine (hleft.dtype_eq.trans hright.dtype_eq.symm) fun _ => hleft.dtype_eq
  generalize lhs.and rhs = folded at hfolded ⊢
  cases hfolded with
  | literal value => exact Expr.inert_literal _ _
  | left same => exact hlhs
  | right same => exact hrhs
  | node =>
      exact facts.inert_collapse (.and (hleft.dtype_eq ▸ facts.typedAt_simplify hleft.wellTyped)
        (hright.dtype_eq ▸ facts.typedAt_simplify hright.wellTyped) hlhs hrhs)
  | offset turned value before after => cases before

/-- A variable that is moved by an offset does not become a bare variable. -/
theorem var?_simplify_add (facts : Facts) (hv : v.dtype = .int32)
    (hlow : DType.int32.contains low = true) (hne : low ≠ 0) :
    (facts.simplify ((Expr.var v).add (.const .int32 low))).var? = none := by
  obtain ⟨op, k, hop, hk, hadd⟩ := Expr.exists_add_const hv hlow hne
  have hvar : (Expr.var v).TypedAt .int32 := ⟨⟨trivial, trivial⟩, hv⟩
  have hzero : (Expr.var v).eval (fun _ => some 0) = .ok 0 :=
    congrArg Except.ok v.dtype.truncate_zero
  have hvalue : (Expr.binary op (.var v) (.const .int32 k)).eval (fun _ => some 0) = .ok low := by
    rw [← hadd]
    exact Expr.eval_combine_of_contains rfl hvar (Expr.typedAt_const hlow) hzero
      (Expr.eval_const_of_contains hlow) (congrArg some (zero_add low)) hlow
  have hpredicate : op.isPredicate = false := by rcases hop with rfl | rfl <;> rfl
  have hlogical : op.isLogical = true → (Expr.var v).dtype = .bool := by
    rcases hop with rfl | rfl <;> nofun
  have hnode : facts.simplify (.binary op (.var v) (.const .int32 k)) = facts.collapse
      (Expr.combine op (facts.collapse (.var v)) (.const .int32 k)).normalize := by
    rcases hop with rfl | rfl <;> rfl
  rw [hadd, hnode]
  apply facts.var?_collapse
  rcases facts.collapse_cases (.var v) with hkept | ⟨value, hliteral⟩
  · rw [hkept]
    have htyped := hvar.combine hpredicate (Expr.typedAt_const hk)
    exact Expr.var?_eq_none_of_eval (Expr.eval_normalize htyped.wellTyped
      (Expr.eval_combine hvar.wellTyped.formed (Expr.typedAt_const hk).wellTyped.formed hv hlogical
        hvalue) fun hbool => by rw [htyped.dtype_eq] at hbool; cases hbool) hne
  · have hdtype : (Expr.var v).dtype = .int32 := hv
    have hcompute : ∃ result, op.compute? (DType.int32.truncate value) k = some result := by
      rcases hop with rfl | rfl <;> exact ⟨_, rfl⟩
    obtain ⟨result, hresult⟩ := hcompute
    rw [hliteral, hdtype, Expr.literal, Expr.combine_const hresult]
    rfl

end Facts

end LoopNest
