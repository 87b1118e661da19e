/-
# Rebuilding a linear form

Rebuilding goes through scaled terms and partial sums. What it preserves is stated
once, for any relation between expressions and exact integers that the folding
constructors respect: the relation then holds between the rebuilt expression and
the integer that it was built for. Being well typed is one such relation, having a
value with the right residue another.
-/

import LoopNest.Proofs.Expr.Linear

namespace LoopNest

variable {assignment : Assignment} {dtype : DType}

namespace Expr

namespace TypedAt

theorem literal (value : Int) : (Expr.literal dtype value).TypedAt dtype :=
  ⟨wellTyped_literal dtype value, rfl⟩

theorem negate {e : Expr} (h : e.TypedAt dtype) : e.negate.TypedAt dtype :=
  ⟨⟨formed_negate h.wellTyped.formed, complements_negate h.wellTyped.complements⟩,
    (dtype_negate e).trans h.dtype_eq⟩

/-- Arithmetic keeps the type of its operands. -/
theorem combine {op : BinaryOp} (hop : op.isPredicate = false) {lhs rhs : Expr}
    (hlhs : lhs.TypedAt dtype) (hrhs : rhs.TypedAt dtype) :
    (Expr.combine op lhs rhs).TypedAt dtype := by
  have same : lhs.dtype = rhs.dtype := hlhs.dtype_eq.trans hrhs.dtype_eq.symm
  have hbool : op.isLogical = true → lhs.dtype = .bool := fun hlogical =>
    absurd hlogical (BinaryOp.not_isLogical hop)
  refine ⟨wellTyped_combine same hbool hlhs.wellTyped hrhs.wellTyped, ?_⟩
  rw [dtype_combine same hbool, resultType, hop, hlhs.dtype_eq]
  rfl

end TypedAt

/-- The expression is uniform and its value has the residue of an exact integer. -/
structure HasResidue (assignment : Assignment) (dtype : DType) (e : Expr) (exact : Int) : Prop
    extends e.UniformAt dtype where
  eval : ∃ value, e.eval assignment = .ok value ∧ value ≡ exact [ZMOD dtype.modulus]

namespace HasResidue

variable {e lhs rhs : Expr} {exact other : Int}

theorem of_eval {value : Int} (h : e.UniformAt dtype) (hvalue : e.eval assignment = .ok value) :
    e.HasResidue assignment dtype value :=
  ⟨h, value, hvalue, rfl⟩

/-- The value is the exact integer itself if that belongs to the type. -/
theorem eval_eq (h : e.HasResidue assignment dtype exact) (hexact : dtype.contains exact = true) :
    e.eval assignment = .ok exact := by
  obtain ⟨value, hvalue, hresidue⟩ := h.eval
  rwa [DType.eq_of_modEq (h.dtype_eq ▸ eval_contains hvalue) hexact hresidue] at hvalue

theorem congr (h : e.HasResidue assignment dtype exact)
    (heq : exact ≡ other [ZMOD dtype.modulus]) : e.HasResidue assignment dtype other := by
  obtain ⟨value, hvalue, hresidue⟩ := h.eval
  exact ⟨h.toUniformAt, value, hvalue, hresidue.trans heq⟩

/-- A literal has the residue of what it is made from, unless that is wrapped to a truth value. -/
theorem literal {value : Int} (h : dtype = .bool → dtype.contains value = true) :
    (Expr.literal dtype value).HasResidue assignment dtype value := by
  exact ⟨.literal value, dtype.truncate value, eval_literal_wrapped dtype value,
    DType.truncate_modEq_of_bool h⟩

theorem negate (h : e.HasResidue assignment dtype exact)
    (hbool : dtype = .bool → dtype.contains (-exact) = true) :
    e.negate.HasResidue assignment dtype (-exact) := by
  obtain ⟨value, hvalue, hresidue⟩ := h.eval
  refine ⟨h.toUniformAt.negate, dtype.truncate (-value), ?_, ?_⟩
  · rw [h.uniform.literalFits.eval_negate hvalue, h.dtype_eq]
  · rw [DType.truncate_congr hresidue.neg]
    exact DType.truncate_modEq_of_bool hbool

/-- An operator that is defined everywhere and respects residues has the residue of what it
computes. -/
theorem combine {op : BinaryOp} {compute : Int → Int → Int} (hop : op.isPredicate = false)
    (hcompute : ∀ left right, op.compute? left right = some (compute left right))
    (hcongr : ∀ {n left left' right right' : Int}, left ≡ left' [ZMOD n] →
      right ≡ right' [ZMOD n] → compute left right ≡ compute left' right' [ZMOD n])
    (hlhs : lhs.HasResidue assignment dtype exact) (hrhs : rhs.HasResidue assignment dtype other)
    (hbool : dtype = .bool → dtype.contains (compute exact other) = true) :
    (Expr.combine op lhs rhs).HasResidue assignment dtype (compute exact other) := by
  obtain ⟨left, hleft, hresidue⟩ := hlhs.eval
  obtain ⟨right, hright, hresidue'⟩ := hrhs.eval
  refine ⟨hlhs.toUniformAt.combine hop hrhs.toUniformAt, dtype.truncate (compute left right),
    ?_, ?_⟩
  · apply hlhs.uniform.literalFits.eval_combine hrhs.uniform.literalFits
      (hlhs.dtype_eq.trans hrhs.dtype_eq.symm)
    · exact fun hlogical => absurd hlogical (BinaryOp.not_isLogical hop)
    · rw [eval_binary_of_eval hleft hright (hcompute left right)]
      simp [Expr.dtype, hop, hlhs.dtype_eq]
  · rw [DType.truncate_congr (hcongr hresidue hresidue')]
    exact DType.truncate_modEq_of_bool hbool

end HasResidue

/-- The expression is well typed and its value has the residue of an exact integer. -/
structure Denotes (assignment : Assignment) (dtype : DType) (e : Expr) (exact : Int) : Prop
    extends e.TypedAt dtype where
  eval : ∃ value, e.eval assignment = .ok value ∧ value ≡ exact [ZMOD dtype.modulus]

theorem TypedAt.uniformAt {e : Expr} (h : e.TypedAt dtype) : e.UniformAt dtype :=
  ⟨h.wellTyped.formed.uniform, h.dtype_eq⟩

namespace Denotes

variable {e lhs rhs : Expr} {exact other : Int}

theorem hasResidue (h : e.Denotes assignment dtype exact) : e.HasResidue assignment dtype exact :=
  ⟨h.toTypedAt.uniformAt, h.eval⟩

/-- The value is the exact integer itself if that belongs to the type. -/
theorem eval_eq (h : e.Denotes assignment dtype exact) (hexact : dtype.contains exact = true) :
    e.eval assignment = .ok exact :=
  h.hasResidue.eval_eq hexact

/-- In any case the value is what the exact integer wraps to. -/
theorem eval_eq_truncate (h : e.Denotes assignment dtype exact) :
    e.eval assignment = .ok (dtype.truncate exact) := by
  obtain ⟨value, hvalue, hresidue⟩ := h.eval
  have hcontains : dtype.contains value = true := h.dtype_eq ▸ Expr.eval_contains hvalue
  rw [hvalue, ← DType.truncate_congr hresidue, DType.truncate_of_contains hcontains]

theorem congr (h : e.Denotes assignment dtype exact) (heq : exact ≡ other [ZMOD dtype.modulus]) :
    e.Denotes assignment dtype other :=
  ⟨h.toTypedAt, (h.hasResidue.congr heq).eval⟩

theorem of_eval {value : Int} (h : e.TypedAt dtype) (hvalue : e.eval assignment = .ok value) :
    e.Denotes assignment dtype value :=
  ⟨h, value, hvalue, rfl⟩

/-- An operator that is defined everywhere and respects residues denotes what it computes. -/
theorem combine {op : BinaryOp} {compute : Int → Int → Int} (hop : op.isPredicate = false)
    (hcompute : ∀ left right, op.compute? left right = some (compute left right))
    (hcongr : ∀ {n left left' right right' : Int}, left ≡ left' [ZMOD n] →
      right ≡ right' [ZMOD n] → compute left right ≡ compute left' right' [ZMOD n])
    (hlhs : lhs.Denotes assignment dtype exact) (hrhs : rhs.Denotes assignment dtype other)
    (hbool : dtype = .bool → dtype.contains (compute exact other) = true) :
    (Expr.combine op lhs rhs).Denotes assignment dtype (compute exact other) :=
  ⟨hlhs.toTypedAt.combine hop hrhs.toTypedAt,
    (hlhs.hasResidue.combine hop hcompute hcongr hrhs.hasResidue hbool).eval⟩

end Denotes

end Expr

namespace LinearForm

/-- A relation between expressions and exact integers that the constructors used in
rebuilding respect, as long as every integer on the way is admissible. -/
structure RebuildInvariant (dtype : DType) (admissible : Int → Prop)
    (relation : Expr → Int → Prop) : Prop where
  literal : ∀ {value}, admissible value → relation (.literal dtype value) value
  add : ∀ {first second x y}, relation first x → relation second y → admissible (x + y) →
    relation (first.add second) (x + y)
  sub : ∀ {first second x y}, relation first x → relation second y → admissible (x - y) →
    relation (first.sub second) (x - y)
  mul : ∀ {first second x y}, relation first x → relation second y → admissible (x * y) →
    relation (first.mul second) (x * y)
  negate : ∀ {e x}, relation e x → admissible (-x) → relation e.negate (-x)

theorem rebuildInvariant_typedAt (dtype : DType) :
    RebuildInvariant dtype (fun _ => True) fun e _ => e.TypedAt dtype where
  literal _ := .literal _
  add h h' _ := h.combine rfl h'
  sub h h' _ := h.combine rfl h'
  mul h h' _ := h.combine rfl h'
  negate h _ := h.negate

theorem rebuildInvariant_uniformAt (dtype : DType) :
    RebuildInvariant dtype (fun _ => True) fun e _ => e.UniformAt dtype where
  literal _ := .literal _
  add h h' _ := h.combine rfl h'
  sub h h' _ := h.combine rfl h'
  mul h h' _ := h.combine rfl h'
  negate h _ := h.negate

theorem rebuildInvariant_hasResidue (assignment : Assignment) (dtype : DType) :
    RebuildInvariant dtype (fun value => dtype = .bool → dtype.contains value = true)
      (Expr.HasResidue assignment dtype) where
  literal h := .literal h
  add h h' hbool := h.combine rfl (fun _ _ => rfl) Int.ModEq.add h' hbool
  sub h h' hbool := h.combine rfl (fun _ _ => rfl) Int.ModEq.sub h' hbool
  mul h h' hbool := h.combine rfl (fun _ _ => rfl) Int.ModEq.mul h' hbool
  negate h hbool := h.negate hbool

/-- Every sum of a beginning of the list with the start is admissible. -/
def SumsWithin (admissible : Int → Prop) (start : Int) : List Int → Prop
  | [] => True
  | value :: rest => admissible (start + value) ∧ SumsWithin admissible (start + value) rest

instance decidableSumsWithin (admissible : Int → Prop) [DecidablePred admissible] :
    (start : Int) → (values : List Int) → Decidable (SumsWithin admissible start values)
  | _, [] => isTrue trivial
  | start, value :: rest =>
    haveI := decidableSumsWithin admissible (start + value) rest
    inferInstanceAs (Decidable (admissible (start + value) ∧ _))

theorem sumsWithin_append {admissible : Int → Prop} {start : Int} {first second : List Int} :
    SumsWithin admissible start (first ++ second) ↔
      SumsWithin admissible start first ∧ SumsWithin admissible (start + first.sum) second := by
  induction first generalizing start with
  | nil => simp [SumsWithin]
  | cons value rest ih =>
      simp only [List.cons_append, SumsWithin, ih, List.sum_cons, and_assoc, add_assoc]

/-- What a term with a positive coefficient adds to what has been rebuilt. -/
def gain (assignment : Assignment) (entry : Expr × Int) : Int :=
  entry.1.valueAt assignment * entry.2

/-- What a term with a negative coefficient takes away. -/
def loss (assignment : Assignment) (entry : Expr × Int) : Int :=
  entry.1.valueAt assignment * Word.wrap (-entry.2)

/-- The terms that are added in rebuilding a form. -/
def positiveTerms (form : LinearForm) : List (Expr × Int) :=
  form.terms.filter fun entry => decide (0 < entry.2)

/-- The terms that are subtracted in rebuilding a form. -/
def negativeTerms (form : LinearForm) : List (Expr × Int) :=
  form.terms.filter fun entry => decide (entry.2 < 0)

/-- What is added up in rebuilding a form, in this order. -/
def summands (assignment : Assignment) (form : LinearForm) : List Int :=
  form.positiveTerms.map (gain assignment) ++
    form.negativeTerms.map (fun entry => -loss assignment entry) ++ [form.constant]

/-- Every integer met in rebuilding a form is admissible. -/
structure RebuildsWithin (admissible : Int → Prop) (assignment : Assignment)
    (form : LinearForm) : Prop where
  constant : admissible form.constant
  positive : ∀ entry ∈ form.positiveTerms, admissible entry.2 ∧ admissible (gain assignment entry)
  negative : ∀ entry ∈ form.negativeTerms,
    admissible (Word.wrap (-entry.2)) ∧ admissible (loss assignment entry)
  sums : SumsWithin admissible 0 (form.summands assignment)

instance (admissible : Int → Prop) [DecidablePred admissible] (form : LinearForm) :
    Decidable (form.RebuildsWithin admissible assignment) :=
  decidable_of_iff
    (admissible form.constant ∧
      (∀ entry ∈ form.positiveTerms, admissible entry.2 ∧ admissible (gain assignment entry)) ∧
      (∀ entry ∈ form.negativeTerms,
        admissible (Word.wrap (-entry.2)) ∧ admissible (loss assignment entry)) ∧
      SumsWithin admissible 0 (form.summands assignment))
    ⟨fun h => ⟨h.1, h.2.1, h.2.2.1, h.2.2.2⟩,
      fun h => ⟨h.constant, h.positive, h.negative, h.sums⟩⟩

section Rebuilding

variable {admissible : Int → Prop} {relation : Expr → Int → Prop} {form : LinearForm}
variable {start : Int} {built : Option Expr} {entries : List (Expr × Int)}

/-- What has been rebuilt so far stands for an integer; nothing stands for zero. -/
def StandsFor (relation : Expr → Int → Prop) (built : Option Expr) (value : Int) : Prop :=
  match built with
  | some sum => relation sum value
  | none => value = 0

theorem scaled_of_invariant (h : RebuildInvariant form.dtype admissible relation) {term : Expr}
    {value coefficient : Int} (hterm : relation term value) (hcoefficient : admissible coefficient)
    (hproduct : admissible (value * coefficient)) :
    relation (form.scaled term coefficient) (value * coefficient) := by
  unfold scaled
  split
  · rename_i hone
    rwa [hone, mul_one]
  · exact h.mul hterm (h.literal hcoefficient) hproduct

theorem foldl_plusTerm_standsFor (h : RebuildInvariant form.dtype admissible relation)
    (hbuilt : StandsFor relation built start)
    (hentries : ∀ entry ∈ entries, relation entry.1 (entry.1.valueAt assignment) ∧
      admissible entry.2 ∧ admissible (gain assignment entry))
    (hsums : SumsWithin admissible start (entries.map (gain assignment))) :
    StandsFor relation (entries.foldl form.plusTerm built)
      (start + (entries.map (gain assignment)).sum) := by
  induction entries generalizing built start with
  | nil => simpa using hbuilt
  | cons entry rest ih =>
      rw [List.forall_mem_cons] at hentries
      obtain ⟨⟨hterm, hcoefficient, hproduct⟩, hrest⟩ := hentries
      obtain ⟨hsum, hsums⟩ := hsums
      rw [List.foldl_cons, List.map_cons, List.sum_cons, ← add_assoc]
      refine ih ?_ hrest hsums
      have hscaled := scaled_of_invariant h hterm hcoefficient hproduct
      cases built with
      | none =>
          obtain rfl : start = 0 := hbuilt
          simpa [plusTerm, StandsFor, gain] using hscaled
      | some sum => exact h.add hbuilt hscaled hsum

theorem foldl_minusTerm_standsFor (h : RebuildInvariant form.dtype admissible relation)
    (hbuilt : StandsFor relation built start)
    (hentries : ∀ entry ∈ entries, relation entry.1 (entry.1.valueAt assignment) ∧
      admissible (Word.wrap (-entry.2)) ∧ admissible (loss assignment entry))
    (hsums : SumsWithin admissible start (entries.map fun entry => -loss assignment entry)) :
    StandsFor relation (entries.foldl form.minusTerm built)
      (start + (entries.map fun entry => -loss assignment entry).sum) := by
  induction entries generalizing built start with
  | nil => simpa using hbuilt
  | cons entry rest ih =>
      rw [List.forall_mem_cons] at hentries
      obtain ⟨⟨hterm, hcoefficient, hproduct⟩, hrest⟩ := hentries
      obtain ⟨hsum, hsums⟩ := hsums
      rw [List.foldl_cons, List.map_cons, List.sum_cons, ← add_assoc]
      refine ih ?_ hrest hsums
      have hscaled := scaled_of_invariant h hterm hcoefficient hproduct
      cases built with
      | none =>
          obtain rfl : start = 0 := hbuilt
          rw [zero_add] at hsum ⊢
          exact h.negate hscaled hsum
      | some sum =>
          rw [← sub_eq_add_neg] at hsum ⊢
          exact h.sub hbuilt hscaled hsum

/-- What rebuilding preserves holds of the rebuilt expression. -/
theorem toExpr_of_invariant (h : RebuildInvariant form.dtype admissible relation)
    (hterms : ∀ entry ∈ form.terms, relation entry.1 (entry.1.valueAt assignment))
    (hwithin : form.RebuildsWithin admissible assignment) :
    relation form.toExpr (form.summands assignment).sum := by
  have hsums := hwithin.sums
  rw [summands, sumsWithin_append, sumsWithin_append] at hsums
  obtain ⟨⟨hpositive, hnegative⟩, hconstant, -⟩ := hsums
  have hplus : StandsFor relation (form.positiveTerms.foldl form.plusTerm none) _ :=
    foldl_plusTerm_standsFor h (rfl : (0 : Int) = 0)
      (fun entry hentry =>
        ⟨hterms entry (List.mem_filter.mp hentry).1, hwithin.positive entry hentry⟩) hpositive
  have hminus : StandsFor relation (form.negativeTerms.foldl form.minusTerm
      (form.positiveTerms.foldl form.plusTerm none)) _ :=
    foldl_minusTerm_standsFor h hplus
      (fun entry hentry =>
        ⟨hterms entry (List.mem_filter.mp hentry).1, hwithin.negative entry hentry⟩) hnegative
  rw [add_assoc, ← List.sum_append] at hminus
  have hliteral := h.literal hwithin.constant
  rw [summands, List.sum_append, List.sum_singleton, ← zero_add (List.sum _)]
  show relation (match form.negativeTerms.foldl form.minusTerm
    (form.positiveTerms.foldl form.plusTerm none) with
    | some sum => sum.add (.literal form.dtype form.constant)
    | none => .literal form.dtype form.constant) _
  cases hsum : form.negativeTerms.foldl form.minusTerm
      (form.positiveTerms.foldl form.plusTerm none) with
  | some sum =>
      rw [hsum] at hminus
      exact h.add hminus hliteral hconstant
  | none =>
      rw [hsum] at hminus
      rw [show _ = (0 : Int) from hminus, zero_add]
      exact hliteral

end Rebuilding

theorem SumsWithin.mono {admissible weaker : Int → Prop}
    (hweaker : ∀ value, admissible value → weaker value) {start : Int} {values : List Int}
    (h : SumsWithin admissible start values) : SumsWithin weaker start values := by
  induction values generalizing start with
  | nil => trivial
  | cons value rest ih => exact ⟨hweaker _ h.1, ih h.2⟩

theorem RebuildsWithin.mono {admissible weaker : Int → Prop}
    (hweaker : ∀ value, admissible value → weaker value) {form : LinearForm}
    (h : form.RebuildsWithin admissible assignment) : form.RebuildsWithin weaker assignment where
  constant := hweaker _ h.constant
  positive entry hentry := (h.positive entry hentry).imp (hweaker _) (hweaker _)
  negative entry hentry := (h.negative entry hentry).imp (hweaker _) (hweaker _)
  sums := h.sums.mono hweaker

/-- The last sum is the sum of everything. -/
theorem RebuildsWithin.sum_summands {admissible : Int → Prop} {form : LinearForm}
    (h : form.RebuildsWithin admissible assignment) :
    admissible (form.summands assignment).sum := by
  have hsums := h.sums
  rw [summands, sumsWithin_append, zero_add] at hsums
  rw [summands, List.sum_append, List.sum_singleton]
  exact hsums.2.1

theorem sumsWithin_of_forall {admissible : Int → Prop} (h : ∀ value, admissible value)
    (start : Int) (values : List Int) : SumsWithin admissible start values := by
  induction values generalizing start with
  | nil => trivial
  | cons value rest ih => exact ⟨h _, ih _⟩

/-- Where everything is admissible, rebuilding stays within it. -/
theorem rebuildsWithin_of_forall {admissible : Int → Prop} (h : ∀ value, admissible value)
    (assignment : Assignment) (form : LinearForm) : form.RebuildsWithin admissible assignment :=
  ⟨h _, fun _ _ => ⟨h _, h _⟩, fun _ _ => ⟨h _, h _⟩, sumsWithin_of_forall h _ _⟩

/-- The rebuilt expression is uniform at the type of the form, as its terms are. -/
theorem uniformAt_toExpr {form : LinearForm}
    (hterms : ∀ entry ∈ form.terms, entry.1.UniformAt form.dtype) :
    form.toExpr.UniformAt form.dtype :=
  toExpr_of_invariant (rebuildInvariant_uniformAt form.dtype) hterms
    (rebuildsWithin_of_forall (fun _ => trivial) (fun _ => none) form)

/-- The rebuilt expression is well typed at the type of the form, as its terms are. -/
theorem typedAt_toExpr {form : LinearForm}
    (hterms : ∀ entry ∈ form.terms, entry.1.TypedAt form.dtype) :
    form.toExpr.TypedAt form.dtype :=
  toExpr_of_invariant (rebuildInvariant_typedAt form.dtype) hterms
    (rebuildsWithin_of_forall (fun _ => trivial) (fun _ => none) form)

/-- The signs in which a form is rebuilt make no difference to its value, except that
coefficients are words. -/
theorem sum_summands_modEq (assignment : Assignment) (form : LinearForm) :
    (form.summands assignment).sum ≡ form.valueAt assignment [ZMOD 18446744073709551616] := by
  have hterms : ∀ terms : List (Expr × Int),
      ((terms.filter fun entry => decide (0 < entry.2)).map (gain assignment)).sum +
        ((terms.filter fun entry => decide (entry.2 < 0)).map
          fun entry => -loss assignment entry).sum ≡
      termsValue assignment terms [ZMOD 18446744073709551616] := by
    intro terms
    induction terms with
    | nil => rfl
    | cons entry rest ih =>
        obtain ⟨term, coefficient⟩ := entry
        rw [termsValue_cons]
        rcases lt_trichotomy coefficient 0 with hsign | rfl | hsign
        · have hloss : -loss assignment (term, coefficient) ≡
              coefficient * term.valueAt assignment [ZMOD 18446744073709551616] := by
            have hwrap := (Word.wrap_modEq dvd_rfl (-coefficient)).mul_left
              (term.valueAt assignment)
            have hneg := hwrap.neg
            rwa [show -(term.valueAt assignment * -coefficient) =
              coefficient * term.valueAt assignment by ring] at hneg
          simp only [List.filter_cons, hsign, hsign.not_gt, decide_true, decide_false, if_true,
            Bool.false_eq_true, if_false, List.map_cons, List.sum_cons]
          rw [add_left_comm]
          exact hloss.add ih
        · simpa using ih
        · simp only [List.filter_cons, hsign, hsign.not_gt, decide_true, decide_false, if_true,
            Bool.false_eq_true, if_false, List.map_cons, List.sum_cons]
          rw [add_assoc, show gain assignment (term, coefficient) =
            coefficient * term.valueAt assignment from mul_comm _ _]
          exact ih.add_left _
  rw [summands, List.sum_append, List.sum_append, List.sum_singleton, valueAt, add_comm]
  exact (hterms form.terms).add_left _

/-- For truth values a form has to be rebuilt within the type, and so does its value. -/
structure TruthWithin (assignment : Assignment) (form : LinearForm) : Prop where
  rebuilds : form.RebuildsWithin (fun value => form.dtype.contains value = true) assignment
  value : form.dtype.contains (form.valueAt assignment) = true

instance (form : LinearForm) : Decidable (form.TruthWithin assignment) :=
  decidable_of_iff
    (form.RebuildsWithin (fun value => form.dtype.contains value = true) assignment ∧
      form.dtype.contains (form.valueAt assignment) = true)
    ⟨fun h => ⟨h.1, h.2⟩, fun h => ⟨h.rebuilds, h.value⟩⟩

/-- The rebuilt expression has the value of the form, as a residue of the type. -/
theorem hasResidue_toExpr {form : LinearForm}
    (hterms : ∀ entry ∈ form.terms, entry.1.UniformAt form.dtype)
    (hvalues : ∀ entry ∈ form.terms, entry.1.HasValue assignment)
    (hbool : form.dtype = .bool → form.TruthWithin assignment) :
    form.toExpr.HasResidue assignment form.dtype (form.valueAt assignment) := by
  have hwithin : form.RebuildsWithin
      (fun value => form.dtype = .bool → form.dtype.contains value = true) assignment := by
    by_cases hdtype : form.dtype = .bool
    · exact (hbool hdtype).rebuilds.mono fun _ hcontains _ => hcontains
    · exact rebuildsWithin_of_forall (fun _ heq => absurd heq hdtype) _ _
  have hresidue := toExpr_of_invariant (rebuildInvariant_hasResidue assignment form.dtype)
    (fun entry hentry => by
      obtain ⟨value, hvalue⟩ := hvalues entry hentry
      rw [Expr.valueAt_of_eval hvalue]
      exact .of_eval (hterms entry hentry) hvalue) hwithin
  have hsum := sum_summands_modEq assignment form
  refine hresidue.congr ?_
  by_cases hdtype : form.dtype = .bool
  · have hrebuilt := (hbool hdtype).rebuilds.sum_summands
    have hvalue := (hbool hdtype).value
    rw [hdtype, DType.contains_bool_iff] at hrebuilt hvalue
    have hdvd := hsum.dvd
    rw [show (form.summands assignment).sum = form.valueAt assignment by omega]
  · exact hsum.of_dvd (DType.modulus_dvd_words hdtype)

/-- The rebuilt expression denotes the value of the form. -/
theorem denotes_toExpr {form : LinearForm}
    (hterms : ∀ entry ∈ form.terms, entry.1.TypedAt form.dtype)
    (hvalues : ∀ entry ∈ form.terms, entry.1.HasValue assignment)
    (hbool : form.dtype = .bool → form.TruthWithin assignment) :
    form.toExpr.Denotes assignment form.dtype (form.valueAt assignment) :=
  ⟨typedAt_toExpr hterms,
    (hasResidue_toExpr (fun entry hentry => (hterms entry hentry).uniformAt) hvalues hbool).eval⟩

/-- The linear form of an expression over truth values is followed only where the
expression is exact and the form stays within the type. -/
structure TruthExact (assignment : Assignment) (e : Expr) : Prop where
  exact : e.Exact assignment
  within : (ofExpr e).TruthWithin assignment

instance (e : Expr) : Decidable (TruthExact assignment e) :=
  decidable_of_iff (e.Exact assignment ∧ (ofExpr e).TruthWithin assignment)
    ⟨fun h => ⟨h.1, h.2⟩, fun h => ⟨h.exact, h.within⟩⟩

/-- The linear form of an expression has its value, as a residue of the type. -/
theorem valueAt_ofExpr {e : Expr} {value : Int} (huniform : e.Uniform)
    (hvalue : e.eval assignment = .ok value)
    (hbool : e.dtype = .bool → TruthExact assignment e) :
    (ofExpr e).valueAt assignment ≡ value [ZMOD e.dtype.modulus] := by
  by_cases hdtype : e.dtype = .bool
  · have hresidue := valueAt_ofExpr_modEq dvd_rfl huniform (.inr (hbool hdtype).exact) hvalue
    have hform := (hbool hdtype).within.value
    have hcontains := Expr.eval_contains hvalue
    rw [dtype_ofExpr, hdtype, DType.contains_bool_iff] at hform
    rw [hdtype, DType.contains_bool_iff] at hcontains
    have hdvd := hresidue.dvd
    rw [show (ofExpr e).valueAt assignment = value by omega]
  · exact valueAt_ofExpr_modEq (DType.modulus_dvd_words hdtype) huniform
      (.inl ⟨hdtype, dvd_rfl⟩) hvalue

end LinearForm

namespace Expr

variable {e : Expr} {value : Int}

/-- Normalizing keeps the type of an expression and that it is well typed. -/
theorem TypedAt.normalize (h : e.TypedAt dtype) : e.normalize.TypedAt dtype := by
  have hdtype := (LinearForm.dtype_ofExpr e).trans h.dtype_eq
  exact hdtype ▸ LinearForm.typedAt_toExpr
    (LinearForm.forall_terms_ofExpr (LinearForm.inherited_typedAt _) (hdtype.symm ▸ h))

/-- Normalizing keeps the type of a uniform expression, whatever it wraps. -/
theorem UniformAt.normalize (h : e.UniformAt dtype) : e.normalize.UniformAt dtype := by
  have hdtype := (LinearForm.dtype_ofExpr e).trans h.dtype_eq
  exact hdtype ▸ LinearForm.uniformAt_toExpr
    (LinearForm.forall_terms_ofExpr (LinearForm.inherited_uniformAt _) (hdtype.symm ▸ h))

/-- Normalizing keeps the value of a uniform expression. -/
theorem Uniform.eval_normalize (h : e.Uniform) (hvalue : e.eval assignment = .ok value)
    (hbool : e.dtype = .bool → LinearForm.TruthExact assignment e) :
    e.normalize.eval assignment = .ok value := by
  have hdtype := LinearForm.dtype_ofExpr e
  have hresidue := LinearForm.hasResidue_toExpr
    (LinearForm.forall_terms_ofExpr (LinearForm.inherited_uniformAt _) (⟨h, hdtype.symm⟩))
    (LinearForm.forall_terms_ofExpr (LinearForm.inherited_hasValue assignment) ⟨value, hvalue⟩)
    (fun heq => (hbool (hdtype ▸ heq)).within)
  rw [hdtype] at hresidue
  exact (hresidue.congr (LinearForm.valueAt_ofExpr h hvalue hbool)).eval_eq
    (eval_contains hvalue)

/-- Normalizing keeps the value of a well-typed expression. -/
theorem eval_normalize (h : e.WellTyped) (hvalue : e.eval assignment = .ok value)
    (hbool : e.dtype = .bool → LinearForm.TruthExact assignment e) :
    e.normalize.eval assignment = .ok value :=
  h.formed.uniform.eval_normalize hvalue hbool

end Expr

end LoopNest
