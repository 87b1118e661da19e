/-
# Proper expressions

A proper expression is well typed and casts only what a cast is for: something that is no
literal, to a type that it does not have. The evaluator reduces modulo the size of a type and
the facts compare types before they compare ends, so both rely on expressions being well typed,
and two expressions that differ in an idle cast would not be found equal.

Proper expressions stay proper. The constructors build nothing else out of them as long as
truth values are joined and complemented, and the rewriting of expressions, substitution and
simplification, uses nothing but these constructors. Neither of the two changes the type of an
expression, even where a literal or a quotient was made at another type on the way.
-/

import LoopNest.Proofs.Expr.Built

namespace LoopNest

namespace Expr

variable {e lhs rhs : Expr} {op : BinaryOp} {replacements : Substitution}

/-- Every cast changes the type of something that is no literal. -/
def CastsNeeded : Expr → Prop
  | const _ _ | var _ => True
  | cast dtype source => source.CastsNeeded ∧ source.dtype ≠ dtype ∧ source.value? = none
  | neg operand | not operand => operand.CastsNeeded
  | binary _ lhs rhs => lhs.CastsNeeded ∧ rhs.CastsNeeded

/-- Well typed and without idle casts. -/
structure Proper (e : Expr) : Prop extends WellTyped e where
  casts : e.CastsNeeded

instance decidableCastsNeeded : DecidablePred CastsNeeded
  | const _ _ | var _ => inferInstanceAs (Decidable True)
  | cast dtype source =>
    haveI := decidableCastsNeeded source
    inferInstanceAs (Decidable (source.CastsNeeded ∧ source.dtype ≠ dtype ∧ source.value? = none))
  | neg operand | not operand => decidableCastsNeeded operand
  | binary _ lhs rhs =>
    haveI := decidableCastsNeeded lhs
    haveI := decidableCastsNeeded rhs
    inferInstanceAs (Decidable (lhs.CastsNeeded ∧ rhs.CastsNeeded))

instance (e : Expr) : Decidable e.Proper :=
  decidable_of_iff (e.WellTyped ∧ e.CastsNeeded)
    ⟨fun h => ⟨h.1, h.2⟩, fun h => ⟨h.toWellTyped, h.casts⟩⟩

theorem castsNeeded_castTo (h : e.CastsNeeded) (dtype : DType) : (e.castTo dtype).CastsNeeded := by
  unfold castTo
  split
  · exact h
  · split
    · trivial
    · exact ⟨h, ‹_›, ‹_›⟩

theorem stable_castsNeeded : Stable CastsNeeded where
  literal _ _ := trivial
  ofCast h := h.1
  castTo := castsNeeded_castTo
  neg_iff := Iff.rfl
  not_iff := Iff.rfl
  binary_iff := Iff.rfl

/-- Joining operands of any types is well typed if logical operators join truth values. -/
theorem wellTyped_combine_of_joinsTruth (hlhs : lhs.WellTyped) (hrhs : rhs.WellTyped)
    (hjoins : JoinsTruth op lhs rhs) : (combine op lhs rhs).WellTyped := by
  refine ⟨formed_combine hlhs.formed hrhs.formed hjoins, ?_⟩
  have hleft := complements_castTo hlhs.complements (promote lhs rhs).1.dtype
  have hright := complements_castTo hrhs.complements (promote lhs rhs).1.dtype
  rw [combine, promote_eq_castTo]
  have hliteral : ∀ dtype value, (literal dtype value).ComplementsTruth := fun _ _ => trivial
  exact foldNode_cases hliteral hleft hright ⟨hleft, hright⟩ fun _ _ _ => ⟨hleft, trivial⟩

/-- Well-typed replacements leave well-typed expressions well typed, and of their types. -/
theorem typedAt_substitute
    (hreplacements : ∀ v replacement, replacements v = some replacement → replacement.WellTyped)
    (h : e.WellTyped) : (e.substitute replacements).TypedAt e.dtype := by
  refine substitute_induction (fun e new => e.WellTyped → new.TypedAt e.dtype)
    (fun _ _ h => ⟨h, rfl⟩)
    (fun v replacement hreplacement _ =>
      .castTo (hreplacements v replacement hreplacement) v.dtype)
    (fun dtype _ _ ih h => .castTo (ih ⟨h.formed, h.complements⟩).wellTyped dtype)
    (fun _ _ ih h => (ih ⟨h.formed, h.complements⟩).negate)
    (fun operand new ih h => ?_) (fun op lhs rhs left right ihl ihr h => ?_) e h
  · obtain ⟨hoperand, hbool⟩ := h.complements
    have hnew : new.TypedAt .bool := hbool ▸ ih ⟨h.formed, hoperand⟩
    exact hnew.complement
  · obtain ⟨hlhs, hrhs, same, hbool⟩ := h.formed
    have hleft := ihl ⟨hlhs, h.complements.1⟩
    have hright := ihr ⟨hrhs, h.complements.2⟩
    have same' : left.dtype = right.dtype := by rw [hleft.dtype_eq, hright.dtype_eq, same]
    have hbool' : op.isLogical = true → left.dtype = .bool := fun hlogical =>
      hleft.dtype_eq.trans (hbool hlogical)
    refine ⟨wellTyped_combine same' hbool' hleft.wellTyped hright.wellTyped, ?_⟩
    rw [dtype_combine same' hbool', hleft.dtype_eq]
    rfl

namespace Proper

theorem castTo (h : e.Proper) (dtype : DType) : (e.castTo dtype).Proper :=
  ⟨(TypedAt.castTo h.toWellTyped dtype).wellTyped, castsNeeded_castTo h.casts dtype⟩

theorem negate (h : e.Proper) : e.negate.Proper :=
  ⟨⟨formed_negate h.formed, complements_negate h.complements⟩, stable_castsNeeded.negate h.casts⟩

theorem complement (h : e.Proper) (hbool : e.dtype = .bool) : e.complement.Proper :=
  ⟨⟨formed_complement h.formed, complements_complement h.complements hbool⟩,
    stable_castsNeeded.complement h.casts⟩

theorem combine (hlhs : lhs.Proper) (hrhs : rhs.Proper) (hjoins : JoinsTruth op lhs rhs) :
    (combine op lhs rhs).Proper :=
  ⟨wellTyped_combine_of_joinsTruth hlhs.toWellTyped hrhs.toWellTyped hjoins,
    stable_castsNeeded.combine hlhs.casts hrhs.casts⟩

theorem substitute (h : e.Proper)
    (hreplacements : ∀ v replacement, replacements v = some replacement → replacement.Proper) :
    (e.substitute replacements).Proper ∧ (e.substitute replacements).dtype = e.dtype := by
  have htyped := typedAt_substitute
    (fun v replacement hv => (hreplacements v replacement hv).toWellTyped) h.toWellTyped
  have hcasts := stable_castsNeeded.substitute
    (fun v replacement hv => (hreplacements v replacement hv).casts) h.casts
  exact ⟨⟨htyped.wellTyped, hcasts⟩, htyped.dtype_eq⟩

theorem simplify (h : e.Proper) (facts : Facts) :
    (facts.simplify e).Proper ∧ (facts.simplify e).dtype = e.dtype := by
  have htyped := facts.typedAt_simplify h.toWellTyped
  exact ⟨⟨htyped.wellTyped, stable_castsNeeded.simplify facts h.casts⟩, htyped.dtype_eq⟩

end Proper

/-- Whatever the constructors make of proper expressions is proper, provided that they complement
and logically join truth values only. Substituting proper expressions and simplifying under any
facts keep expressions proper and keep their types. -/
theorem rewriting_keeps_proper :
    (∀ (dtype : DType) (value : Int), (literal dtype value).Proper) ∧
    (∀ v : Var, (var v).Proper) ∧
    (∀ (e : Expr) (dtype : DType), e.Proper → (e.castTo dtype).Proper) ∧
    (∀ e : Expr, e.Proper → e.negate.Proper) ∧
    (∀ e : Expr, e.Proper → e.dtype = .bool → e.complement.Proper) ∧
    (∀ (op : BinaryOp) (lhs rhs : Expr), lhs.Proper → rhs.Proper →
      (op.isLogical = true → lhs.dtype = .bool ∧ rhs.dtype = .bool) →
      (combine op lhs rhs).Proper) ∧
    (∀ (e : Expr) (replacements : Substitution), e.Proper →
      (∀ v replacement, replacements v = some replacement → replacement.Proper) →
      (e.substitute replacements).Proper ∧ (e.substitute replacements).dtype = e.dtype) ∧
    ∀ (e : Expr) (facts : Facts), e.Proper →
      (facts.simplify e).Proper ∧ (facts.simplify e).dtype = e.dtype := by
  refine ⟨fun dtype value => ⟨wellTyped_literal dtype value, trivial⟩,
    fun v => ⟨⟨trivial, trivial⟩, trivial⟩, fun _ dtype h => h.castTo dtype,
    fun _ h => h.negate, fun _ h hbool => h.complement hbool,
    fun _ _ _ hlhs hrhs hjoins => hlhs.combine hrhs hjoins,
    fun _ _ h hreplacements => h.substitute hreplacements, fun _ facts h => h.simplify facts⟩

/-- The sum of a byte and a word is taken at the wider type, to which the byte is cast. The
complement of that sum is what the rule about truth values excludes. -/
example : ((var byteVar).add (var wordVar)).Proper ∧
    ¬((var byteVar).add (var wordVar)).complement.Proper := by decide

end Expr

end LoopNest
