/-
# Linear forms keep the value

A linear form has a value of its own, found in exact integers from the values of its
terms. Flattening keeps the value of an expression and rebuilding keeps the value
of a form, both as residues modulo the number of values of the type. For an integer
type nothing else is needed, whatever wraps on the way.

Truth values have no residues. A form over them is only followed where flattening
and rebuilding stay within the type.
-/

import LoopNest.Expr.Linear
import LoopNest.Proofs.Expr.Exact
import LoopNest.Proofs.Expr.Uniform
import Mathlib.Tactic.Ring

namespace LoopNest

variable {assignment : Assignment} {n : Int}

/-- A wrapped word keeps its residue modulo every divisor of the number of words. -/
theorem Word.wrap_modEq (hn : n ∣ 18446744073709551616) (value : Int) :
    Word.wrap value ≡ value [ZMOD n] := by
  have hwords : Word.wrap value ≡ value [ZMOD 18446744073709551616] := Int.bmod_emod
  exact hwords.of_dvd hn

namespace Expr

/-- The value of an expression, and zero if it has none. -/
def valueAt (assignment : Assignment) (e : Expr) : Int :=
  match e.eval assignment with
  | .ok value => value
  | .error _ => 0

theorem valueAt_of_eval {e : Expr} {value : Int} (h : e.eval assignment = .ok value) :
    e.valueAt assignment = value := by
  rw [valueAt, h]

/-- The expression has a value. -/
def HasValue (assignment : Assignment) (e : Expr) : Prop :=
  ∃ value, e.eval assignment = .ok value

/-- Evaluating arithmetic keeps the residue of what is computed: either the type is an
integer type whose wrapping the modulus respects, or nothing wraps. -/
def KeepsResidue (assignment : Assignment) (n : Int) (e : Expr) : Prop :=
  e.dtype ≠ .bool ∧ n ∣ e.dtype.modulus ∨ e.Exact assignment

namespace KeepsResidue

variable {op : BinaryOp} {lhs rhs operand : Expr} {value : Int}

/-- A negation keeps the residue of the opposite value. -/
theorem eval_neg (h : (neg operand).KeepsResidue assignment n)
    (hvalue : (neg operand).eval assignment = .ok value) :
    ∃ inner, operand.eval assignment = .ok inner ∧ value ≡ -inner [ZMOD n] ∧
      operand.KeepsResidue assignment n := by
  rcases h with ⟨hinteger, hdvd⟩ | hexact
  · obtain ⟨inner, hinner, rfl⟩ := eval_neg_inv hvalue
    exact ⟨inner, hinner, (DType.truncate_modEq hinteger _).of_dvd hdvd, .inl ⟨hinteger, hdvd⟩⟩
  · obtain ⟨hoperand, hinner, -⟩ := hexact.eval_neg hvalue
    exact ⟨-value, hinner, by rw [neg_neg], .inr hoperand⟩

/-- An arithmetic node keeps the residue of what its operator computes. -/
theorem eval_binary (hop : op.isPredicate = false) (same : lhs.dtype = rhs.dtype)
    (h : (binary op lhs rhs).KeepsResidue assignment n)
    (hvalue : (binary op lhs rhs).eval assignment = .ok value) :
    ∃ left right result, lhs.eval assignment = .ok left ∧ rhs.eval assignment = .ok right ∧
      op.compute? left right = some result ∧ value ≡ result [ZMOD n] ∧
      lhs.KeepsResidue assignment n ∧ rhs.KeepsResidue assignment n := by
  have hlogical : op.isLogical = false := by
    rw [BinaryOp.isPredicate, Bool.or_eq_false_iff] at hop
    exact hop.2
  have hdtype : (binary op lhs rhs).dtype = lhs.dtype := by simp [dtype, hop]
  rcases h with ⟨hinteger, hdvd⟩ | hexact
  · obtain ⟨left, right, result, hleft, hright, hresult, rfl⟩ :=
      eval_binary_inv_of_not_isLogical hlogical hvalue
    have hkeeps := (DType.truncate_modEq hinteger result).of_dvd hdvd
    rw [hdtype] at hinteger hdvd
    exact ⟨left, right, result, hleft, hright, hresult, hkeeps, .inl ⟨hinteger, hdvd⟩,
      .inl (same ▸ ⟨hinteger, hdvd⟩)⟩
  · obtain ⟨left, right, hleft, hright, hrhs, hresult, -⟩ := hexact.eval_binary hlogical hvalue
    exact ⟨left, right, value, hleft, hright, hresult, rfl, .inr hexact.1, .inr hrhs⟩

end KeepsResidue

/-- Well typed and of a given type. -/
structure TypedAt (dtype : DType) (e : Expr) : Prop where
  wellTyped : e.WellTyped
  dtype_eq : e.dtype = dtype

end Expr

namespace LinearForm

/-- The value of a sum of multiples of terms. -/
def termsValue (assignment : Assignment) (terms : List (Expr × Int)) : Int :=
  (terms.map fun entry => entry.2 * entry.1.valueAt assignment).sum

/-- The value of a linear form in exact integers. -/
def valueAt (assignment : Assignment) (form : LinearForm) : Int :=
  form.constant + termsValue assignment form.terms

@[simp] theorem termsValue_nil : termsValue assignment [] = 0 := rfl

@[simp] theorem termsValue_cons (entry : Expr × Int) (rest : List (Expr × Int)) :
    termsValue assignment (entry :: rest) =
      entry.2 * entry.1.valueAt assignment + termsValue assignment rest :=
  List.sum_cons

/-- Adding to a coefficient adds a multiple of the term. -/
theorem termsValue_addToTerms (hn : n ∣ 18446744073709551616) (term : Expr) (coefficient : Int)
    (terms : List (Expr × Int)) :
    termsValue assignment (addToTerms term coefficient terms) ≡
      termsValue assignment terms + coefficient * term.valueAt assignment [ZMOD n] := by
  induction terms with
  | nil => simp [addToTerms]
  | cons entry rest ih =>
      obtain ⟨other, known⟩ := entry
      unfold addToTerms
      split
      · rename_i hother
        rw [hother, termsValue_cons, termsValue_cons]
        calc Word.wrap (known + coefficient) * term.valueAt assignment + termsValue assignment rest
            ≡ (known + coefficient) * term.valueAt assignment + termsValue assignment rest
              [ZMOD n] := ((Word.wrap_modEq hn _).mul_right _).add_right _
          _ = known * term.valueAt assignment + termsValue assignment rest +
              coefficient * term.valueAt assignment := by ring
      · rw [termsValue_cons, termsValue_cons, add_assoc]
        exact ih.add_left _

theorem valueAt_addTerm (hn : n ∣ 18446744073709551616) (form : LinearForm) {term : Expr}
    {value : Int} (h : term.eval assignment = .ok value) (coefficient : Int) :
    (form.addTerm term coefficient).valueAt assignment ≡
      form.valueAt assignment + coefficient * value [ZMOD n] := by
  rw [valueAt, valueAt, add_assoc, ← Expr.valueAt_of_eval h]
  exact (termsValue_addToTerms hn term coefficient form.terms).add_left _

/-- Flattening an expression into a form adds its scaled value, as a residue. -/
theorem valueAt_accumulate (hn : n ∣ 18446744073709551616) {e : Expr} {scale value : Int}
    {form : LinearForm} (huniform : e.Uniform) (hkeeps : e.KeepsResidue assignment n)
    (hvalue : e.eval assignment = .ok value) :
    (accumulate e scale form).valueAt assignment ≡
      form.valueAt assignment + scale * value [ZMOD n] := by
  induction e generalizing scale form value with
  | const dtype literal =>
      obtain rfl : literal = value := Except.ok.inj
        ((huniform.literalFits.eval (show (Expr.const dtype literal).value? = some literal from
          rfl)).symm.trans hvalue)
      calc Word.wrap (form.constant + Word.wrap (literal * scale)) +
            termsValue assignment form.terms
          ≡ form.constant + literal * scale + termsValue assignment form.terms [ZMOD n] :=
            ((Word.wrap_modEq hn _).trans ((Word.wrap_modEq hn _).add_left _)).add_right _
        _ = form.constant + termsValue assignment form.terms + scale * literal := by ring
  | neg operand ih =>
      obtain ⟨inner, hinner, hresidue, hoperand⟩ := hkeeps.eval_neg hvalue
      calc (accumulate operand (Word.wrap (-scale)) form).valueAt assignment
          ≡ form.valueAt assignment + Word.wrap (-scale) * inner [ZMOD n] :=
            ih huniform hoperand hinner
        _ ≡ form.valueAt assignment + -scale * inner [ZMOD n] :=
            ((Word.wrap_modEq hn _).mul_right _).add_left _
        _ = form.valueAt assignment + scale * -inner := by ring
        _ ≡ form.valueAt assignment + scale * value [ZMOD n] :=
            (hresidue.symm.mul_left _).add_left _
  | binary op lhs rhs ihl ihr =>
      cases op with
      | add =>
          obtain ⟨hlhs, hrhs, same⟩ := huniform rfl
          obtain ⟨left, right, result, hleft, hright, hresult, hresidue, hkl, hkr⟩ :=
            hkeeps.eval_binary rfl same hvalue
          obtain rfl : left + right = result := Option.some.inj hresult
          calc (accumulate rhs scale (accumulate lhs scale form)).valueAt assignment
              ≡ (accumulate lhs scale form).valueAt assignment + scale * right [ZMOD n] :=
                ihr hrhs hkr hright
            _ ≡ form.valueAt assignment + scale * left + scale * right [ZMOD n] :=
                (ihl hlhs hkl hleft).add_right _
            _ = form.valueAt assignment + scale * (left + right) := by ring
            _ ≡ form.valueAt assignment + scale * value [ZMOD n] :=
                (hresidue.symm.mul_left _).add_left _
      | sub =>
          obtain ⟨hlhs, hrhs, same⟩ := huniform rfl
          obtain ⟨left, right, result, hleft, hright, hresult, hresidue, hkl, hkr⟩ :=
            hkeeps.eval_binary rfl same hvalue
          obtain rfl : left - right = result := Option.some.inj hresult
          calc (accumulate rhs (Word.wrap (-scale)) (accumulate lhs scale form)).valueAt assignment
              ≡ (accumulate lhs scale form).valueAt assignment + Word.wrap (-scale) * right
                [ZMOD n] := ihr hrhs hkr hright
            _ ≡ form.valueAt assignment + scale * left + -scale * right [ZMOD n] :=
                (ihl hlhs hkl hleft).add ((Word.wrap_modEq hn _).mul_right _)
            _ = form.valueAt assignment + scale * (left - right) := by ring
            _ ≡ form.valueAt assignment + scale * value [ZMOD n] :=
                (hresidue.symm.mul_left _).add_left _
      | mul =>
          obtain ⟨hlhs, hrhs, same⟩ := huniform rfl
          obtain ⟨left, right, result, hleft, hright, hresult, hresidue, hkl, hkr⟩ :=
            hkeeps.eval_binary rfl same hvalue
          obtain rfl : left * right = result := Option.some.inj hresult
          unfold accumulate
          split
          · rename_i factor hfactor
            obtain rfl : factor = right :=
              Except.ok.inj ((hrhs.literalFits.eval hfactor).symm.trans hright)
            calc (accumulate lhs (Word.wrap (scale * factor)) form).valueAt assignment
                ≡ form.valueAt assignment + Word.wrap (scale * factor) * left [ZMOD n] :=
                  ihl hlhs hkl hleft
              _ ≡ form.valueAt assignment + scale * factor * left [ZMOD n] :=
                  ((Word.wrap_modEq hn _).mul_right _).add_left _
              _ = form.valueAt assignment + scale * (left * factor) := by ring
              _ ≡ form.valueAt assignment + scale * value [ZMOD n] :=
                  (hresidue.symm.mul_left _).add_left _
          · rename_i factor hnone hfactor
            obtain rfl : factor = left :=
              Except.ok.inj ((hlhs.literalFits.eval hfactor).symm.trans hleft)
            calc (accumulate rhs (Word.wrap (scale * factor)) form).valueAt assignment
                ≡ form.valueAt assignment + Word.wrap (scale * factor) * right [ZMOD n] :=
                  ihr hrhs hkr hright
              _ ≡ form.valueAt assignment + scale * factor * right [ZMOD n] :=
                  ((Word.wrap_modEq hn _).mul_right _).add_left _
              _ = form.valueAt assignment + scale * (factor * right) := by ring
              _ ≡ form.valueAt assignment + scale * value [ZMOD n] :=
                  (hresidue.symm.mul_left _).add_left _
          · exact valueAt_addTerm hn form hvalue scale
      | _ => exact valueAt_addTerm hn form hvalue scale
  | _ => exact valueAt_addTerm hn form hvalue scale

/-- The linear form of an expression has its value, as a residue. -/
theorem valueAt_ofExpr_modEq (hn : n ∣ 18446744073709551616) {e : Expr} {value : Int}
    (huniform : e.Uniform) (hkeeps : e.KeepsResidue assignment n)
    (hvalue : e.eval assignment = .ok value) :
    (ofExpr e).valueAt assignment ≡ value [ZMOD n] := by
  have h : (ofExpr e).valueAt assignment ≡
      valueAt assignment ⟨[], 0, e.dtype⟩ + 1 * value [ZMOD n] :=
    valueAt_accumulate hn huniform hkeeps hvalue
  rwa [one_mul, show valueAt assignment ⟨[], 0, e.dtype⟩ = 0 from rfl, zero_add] at h

@[simp] theorem dtype_accumulate (e : Expr) (scale : Int) (form : LinearForm) :
    (accumulate e scale form).dtype = form.dtype := by
  fun_induction accumulate e scale form <;> simp_all [addConstant, addTerm]

@[simp] theorem dtype_ofExpr (e : Expr) : (ofExpr e).dtype = e.dtype :=
  dtype_accumulate e 1 _

/-- A property that arithmetic nodes pass on to their operands. -/
structure Inherited (property : Expr → Prop) : Prop where
  neg : ∀ {operand}, property (.neg operand) → property operand
  binary : ∀ {op lhs rhs}, op.isPredicate = false → property (.binary op lhs rhs) →
    property lhs ∧ property rhs

theorem forall_terms_addToTerms {property : Expr → Prop} {term : Expr} (hterm : property term)
    (coefficient : Int) {terms : List (Expr × Int)} (hterms : ∀ entry ∈ terms, property entry.1) :
    ∀ entry ∈ addToTerms term coefficient terms, property entry.1 := by
  induction terms with
  | nil => simpa [addToTerms] using hterm
  | cons entry rest ih =>
      rw [List.forall_mem_cons] at hterms
      unfold addToTerms
      split <;> rw [List.forall_mem_cons]
      · exact hterms
      · exact ⟨hterms.1, ih hterms.2⟩

/-- The terms of a form share the inherited properties of the flattened expression. -/
theorem forall_terms_accumulate {property : Expr → Prop} (inherited : Inherited property)
    {e : Expr} {scale : Int} {form : LinearForm} (he : property e)
    (hform : ∀ entry ∈ form.terms, property entry.1) :
    ∀ entry ∈ (accumulate e scale form).terms, property entry.1 := by
  induction e generalizing scale form with
  | const dtype literal => exact hform
  | neg operand ih => exact ih (inherited.neg he) hform
  | binary op lhs rhs ihl ihr =>
      cases op with
      | add | sub =>
          obtain ⟨hlhs, hrhs⟩ := inherited.binary rfl he
          exact ihr hrhs (ihl hlhs hform)
      | mul =>
          obtain ⟨hlhs, hrhs⟩ := inherited.binary rfl he
          unfold accumulate
          split
          · exact ihl hlhs hform
          · exact ihr hrhs hform
          · exact forall_terms_addToTerms he scale hform
      | _ => exact forall_terms_addToTerms he scale hform
  | _ => exact forall_terms_addToTerms he scale hform

theorem forall_terms_ofExpr {property : Expr → Prop} (inherited : Inherited property) {e : Expr}
    (he : property e) : ∀ entry ∈ (ofExpr e).terms, property entry.1 :=
  forall_terms_accumulate inherited he (by simp)

/-- Being uniform at a given type is inherited. -/
theorem inherited_uniformAt (dtype : DType) : Inherited (Expr.UniformAt dtype) where
  neg h := ⟨h.uniform, h.dtype_eq⟩
  binary {op lhs rhs} hop h := by
    obtain ⟨huniform, hdtype⟩ := h
    obtain ⟨hlhs, hrhs, same⟩ := huniform hop
    have hleft : lhs.dtype = dtype := by simpa [Expr.dtype, hop] using hdtype
    exact ⟨⟨hlhs, hleft⟩, ⟨hrhs, same ▸ hleft⟩⟩

/-- Being well typed at a given type is inherited. -/
theorem inherited_typedAt (dtype : DType) : Inherited (Expr.TypedAt dtype) where
  neg h := ⟨⟨h.wellTyped.formed, h.wellTyped.complements⟩, h.dtype_eq⟩
  binary {op lhs rhs} hop h := by
    obtain ⟨⟨⟨hlhs, hrhs, same, -⟩, hcl, hcr⟩, hdtype⟩ := h
    have hleft : lhs.dtype = dtype := by simpa [Expr.dtype, hop] using hdtype
    exact ⟨⟨⟨hlhs, hcl⟩, hleft⟩, ⟨hrhs, hcr⟩, same ▸ hleft⟩

/-- Arithmetic evaluates all of its operands, so having a value is inherited. -/
theorem inherited_hasValue (assignment : Assignment) :
    Inherited (Expr.HasValue assignment) where
  neg h := by
    obtain ⟨value, hvalue⟩ := h
    obtain ⟨inner, hinner, -⟩ := Expr.eval_neg_inv hvalue
    exact ⟨inner, hinner⟩
  binary hop h := by
    obtain ⟨value, hvalue⟩ := h
    rw [BinaryOp.isPredicate, Bool.or_eq_false_iff] at hop
    obtain ⟨left, right, -, hleft, hright, -⟩ :=
      Expr.eval_binary_inv_of_not_isLogical hop.2 hvalue
    exact ⟨⟨left, hleft⟩, right, hright⟩

end LinearForm

end LoopNest
