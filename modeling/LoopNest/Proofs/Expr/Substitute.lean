/-
# Substituted expressions

Putting expressions in for variables and folding what collapses keeps the type of an
expression, and its value wherever each replacement has the value of the variable that it
stands in for. The two values may belong to different assignments. Only the folding
constructors are used to build what surrounds a replacement, so all properties that these keep
are kept. They are collected by one induction, in which a part without any replaced variable
stays as it is.

The variables that are left are those that were there and were not replaced, as long as the
replacements mention none.
-/

import LoopNest.Expr.Substitute
import LoopNest.Proofs.Facts.Membership

namespace LoopNest

/-- Replacements that have the values of the variables they stand in for. -/
structure Substitution.Agrees (replacements : Substitution) (assignment : Assignment) : Prop where
  formed : ∀ v replacement, replacements v = some replacement → replacement.Formed
  eval : ∀ v replacement, replacements v = some replacement → ∀ x,
    (Expr.var v).eval assignment = .ok x → replacement.eval assignment = .ok x

/-- Replacements that have at one assignment the values that the variables they stand in for
have at another one. What is not replaced has one value at both. -/
structure Substitution.Carries (replacements : Substitution) (before after : Assignment) :
    Prop where
  fits : ∀ v replacement, replacements v = some replacement → replacement.LiteralFits
  kept : ∀ v, replacements v = none → before v = after v
  replaced : ∀ v replacement, replacements v = some replacement → ∀ x,
    (Expr.var v).eval before = .ok x →
      ∃ y, replacement.eval after = .ok y ∧ v.dtype.truncate y = x

theorem Substitution.Agrees.carries {replacements : Substitution} {assignment : Assignment}
    (h : replacements.Agrees assignment) : replacements.Carries assignment assignment where
  fits v replacement hreplacement := (h.formed v replacement hreplacement).literalFits
  kept _ _ := rfl
  replaced v replacement hreplacement x hx :=
    ⟨x, h.eval v replacement hreplacement x hx,
      DType.truncate_of_contains (Expr.eval_var_contains hx)⟩

namespace Expr

variable {e lhs rhs left right : Expr} {op : BinaryOp} {replacements : Substitution}
  {assignment before after : Assignment} {test : Var → Bool} {v : Var} {x : Int}

/-- What holds between a part that is kept, or a replaced variable, and what becomes of it, and
is respected by the constructors, holds between an expression and what becomes of it. -/
theorem substitute_induction (holds : Expr → Expr → Prop)
    (kept : ∀ e, e.affectedBy replacements = false → holds e e)
    (replaced : ∀ v replacement, replacements v = some replacement →
      holds (var v) (replacement.castTo v.dtype))
    (cast : ∀ dtype source new, holds source new → holds (cast dtype source) (new.castTo dtype))
    (neg : ∀ operand new, holds operand new → holds (neg operand) new.negate)
    (not : ∀ operand new, holds operand new → holds (not operand) new.complement)
    (binary : ∀ op lhs rhs left right, holds lhs left → holds rhs right →
      holds (binary op lhs rhs) (combine op left right))
    (e : Expr) : holds e (e.substitute replacements) := by
  induction e with
  | const dtype value => exact kept _ rfl
  | var v =>
      rw [substitute]
      split
      · rename_i haffected
        obtain ⟨replacement, hreplacement⟩ := Option.isSome_iff_exists.mp haffected
        simpa only [hreplacement] using replaced v replacement hreplacement
      · exact kept _ (Bool.eq_false_of_not_eq_true ‹_›)
  | cast dtype source ih =>
      rw [substitute]
      split
      · exact cast dtype source _ ih
      · exact kept _ (Bool.eq_false_of_not_eq_true ‹_›)
  | neg operand ih =>
      rw [substitute]
      split
      · exact neg operand _ ih
      · exact kept _ (Bool.eq_false_of_not_eq_true ‹_›)
  | not operand ih =>
      rw [substitute]
      split
      · exact not operand _ ih
      · exact kept _ (Bool.eq_false_of_not_eq_true ‹_›)
  | binary op lhs rhs ihl ihr =>
      rw [substitute]
      split
      · exact binary op lhs rhs _ _ ihl ihr
      · exact kept _ (Bool.eq_false_of_not_eq_true ‹_›)

theorem anyVar_eq_false (h : e.anyVar test = false) (hv : e.mentions v = true) :
    test v = false := by
  induction e with
  | const => cases hv
  | var w =>
      obtain rfl : w = v := of_decide_eq_true hv
      exact h
  | cast _ _ ih | neg _ ih | not _ ih => exact ih h hv
  | binary op lhs rhs ihl ihr =>
      obtain ⟨hlhs, hrhs⟩ := Bool.or_eq_false_iff.mp h
      rcases (Bool.or_eq_true _ _).mp hv with hv | hv
      · exact ihl hlhs hv
      · exact ihr hrhs hv

/-- What replacements do not touch has one value at both assignments. -/
theorem eval_of_not_affectedBy (h : replacements.Carries before after)
    (hunaffected : e.affectedBy replacements = false) : e.eval before = e.eval after :=
  eval_congr fun v hv => h.kept v (Option.not_isSome_iff_eq_none.mp
    (Bool.not_eq_true _ ▸ anyVar_eq_false hunaffected hv))

/-- An expression at one assignment and a new one at another: they have the same type, and the
new one has the value of the old one where that has a value. -/
structure Carried (before after : Assignment) (e new : Expr) : Prop where
  fits : new.LiteralFits
  dtype_eq : new.dtype = e.dtype
  eval : ∀ x, e.eval before = .ok x → new.eval after = .ok x

namespace Carried

variable {source operand new : Expr}

theorem cast (h : Carried before after source new) (dtype : DType) :
    Carried before after (.cast dtype source) (new.castTo dtype) := by
  refine ⟨h.fits.castTo dtype, dtype_castTo new dtype, fun x hx => ?_⟩
  obtain ⟨y, hy, rfl⟩ := eval_cast_inv hx
  exact h.fits.eval_castTo (h.eval y hy) dtype

theorem neg (h : Carried before after operand new) :
    Carried before after (.neg operand) new.negate := by
  refine ⟨literalFits_negate new, (dtype_negate new).trans h.dtype_eq, fun x hx => ?_⟩
  obtain ⟨y, hy, rfl⟩ := eval_neg_inv hx
  rw [h.fits.eval_negate (h.eval y hy), h.dtype_eq]

theorem not (h : Carried before after operand new) :
    Carried before after (.not operand) new.complement := by
  refine ⟨literalFits_complement new, dtype_complement new, fun x hx => ?_⟩
  obtain ⟨y, hy, rfl⟩ := eval_not_inv hx
  exact h.fits.eval_complement (h.eval y hy)

/-- Joining carried operands carries a node. An operand that was not looked at, since the other
one decided, need not have a value. -/
theorem combine (same : lhs.dtype = rhs.dtype) (hbool : op.isLogical = true → lhs.dtype = .bool)
    (hlhs : Carried before after lhs left) (hrhs : Carried before after rhs right) :
    Carried before after (binary op lhs rhs) (Expr.combine op left right) := by
  have same' : left.dtype = right.dtype := by rw [hlhs.dtype_eq, hrhs.dtype_eq, same]
  have hbool' : op.isLogical = true → left.dtype = .bool := fun hlogical =>
    hlhs.dtype_eq.trans (hbool hlogical)
  refine ⟨(folded_combine same' hbool').literalFits hlhs.fits hrhs.fits, ?_,
    fun x hx => hlhs.fits.eval_combine hrhs.fits same' hbool' ?_⟩
  · rw [dtype_combine same' hbool', hlhs.dtype_eq]
    rfl
  · obtain ⟨l, hl, hdecided | ⟨-, r, result, hr, hresult, rfl⟩⟩ := eval_binary_inv hx
    · exact eval_binary_of_decidedBy? (hlhs.eval l hl) hdecided
    · rw [eval_binary_of_eval (hlhs.eval l hl) (hrhs.eval r hr) hresult]
      simp only [dtype, hlhs.dtype_eq]

end Carried

/-- Substitution keeps types, and values where the replacements have those of the variables. -/
theorem carried_substitute (h : replacements.Carries before after) (hformed : e.Formed) :
    Carried before after e (e.substitute replacements) := by
  refine substitute_induction (fun e new => e.Formed → Carried before after e new)
    (fun e hunaffected hformed => ?_) (fun v replacement hreplacement _ => ?_)
    (fun dtype _ _ ih hformed => (ih hformed).cast dtype)
    (fun _ _ ih hformed => (ih hformed).neg) (fun _ _ ih hformed => (ih hformed).not)
    (fun _ _ _ _ _ ihl ihr hformed =>
      .combine hformed.2.2.1 hformed.2.2.2 (ihl hformed.1) (ihr hformed.2.1)) e hformed
  · exact ⟨hformed.literalFits, rfl, fun _ hx => eval_of_not_affectedBy h hunaffected ▸ hx⟩
  · have hfits := h.fits v replacement hreplacement
    refine ⟨hfits.castTo _, dtype_castTo _ _, fun x hx => ?_⟩
    obtain ⟨y, hy, rfl⟩ := h.replaced v replacement hreplacement x hx
    exact hfits.eval_castTo hy v.dtype

/-- Formed replacements leave formed expressions formed, and of their types. -/
theorem formed_substitute
    (hreplacements : ∀ v replacement, replacements v = some replacement → replacement.Formed)
    (h : e.Formed) :
    (e.substitute replacements).Formed ∧ (e.substitute replacements).dtype = e.dtype := by
  refine substitute_induction (fun e new => e.Formed → new.Formed ∧ new.dtype = e.dtype)
    (fun _ _ h => ⟨h, rfl⟩)
    (fun v replacement hreplacement _ =>
      ⟨formed_castTo (hreplacements v replacement hreplacement) _, dtype_castTo _ _⟩)
    (fun dtype _ _ ih h => ⟨formed_castTo (ih h).1 dtype, dtype_castTo _ _⟩)
    (fun _ new ih h => ⟨formed_negate (ih h).1, (dtype_negate new).trans (ih h).2⟩)
    (fun _ new ih h => ⟨formed_complement (ih h).1, dtype_complement new⟩)
    (fun op lhs rhs left right ihl ihr h => ?_) e h
  obtain ⟨hlhs, hrhs, same, hbool⟩ := h
  obtain ⟨hleft, hdtype⟩ := ihl hlhs
  obtain ⟨hright, hdtype'⟩ := ihr hrhs
  have same' : left.dtype = right.dtype := by rw [hdtype, hdtype', same]
  have hbool' : op.isLogical = true → left.dtype = .bool := fun hlogical =>
    hdtype.trans (hbool hlogical)
  refine ⟨(folded_combine same' hbool').formed hleft hright same' hbool', ?_⟩
  rw [dtype_combine same' hbool', hdtype]
  rfl

/-- Substitution keeps the stable properties that all replacements have. -/
theorem Stable.substitute {holds : Expr → Prop} (stable : Stable holds)
    (hreplacements : ∀ v replacement, replacements v = some replacement → holds replacement)
    (h : holds e) : holds (e.substitute replacements) :=
  substitute_induction (fun e new => holds e → holds new) (fun _ _ h => h)
    (fun v replacement hreplacement _ =>
      stable.castTo (hreplacements v replacement hreplacement) v.dtype)
    (fun dtype _ _ ih h => stable.castTo (ih (stable.ofCast h)) dtype)
    (fun _ _ ih h => stable.negate (ih (stable.neg_iff.mp h)))
    (fun _ _ ih h => stable.complement (ih (stable.not_iff.mp h)))
    (fun _ _ _ _ _ ihl ihr h =>
      stable.combine (ihl (stable.binary_iff.mp h).1) (ihr (stable.binary_iff.mp h).2)) e h

/-- An expression and what it was rebuilt to: they have the same type, and the new one has the
value of the old one where that has a value. -/
structure Rebuilt (assignment : Assignment) (e new : Expr) : Prop where
  formed : new.Formed
  dtype_eq : new.dtype = e.dtype
  eval : ∀ x, e.eval assignment = .ok x → new.eval assignment = .ok x

/-- Formed replacements with the values of the variables rebuild a formed expression. -/
theorem rebuilt_substitute (h : replacements.Agrees assignment) (hformed : e.Formed) :
    e.Rebuilt assignment (e.substitute replacements) where
  formed := (formed_substitute h.formed hformed).1
  dtype_eq := (formed_substitute h.formed hformed).2
  eval := (carried_substitute h.carries hformed).eval

theorem isArithmetic_negate (h : e.IsArithmetic) : e.negate.IsArithmetic := by
  unfold negate
  split
  · trivial
  · exact h

/-- Substitution of arithmetic expressions keeps expressions arithmetic. -/
theorem isArithmetic_substitute
    (hreplacements : ∀ v replacement, replacements v = some replacement → replacement.IsArithmetic)
    (h : e.IsArithmetic) : (e.substitute replacements).IsArithmetic :=
  substitute_induction (fun e new => e.IsArithmetic → new.IsArithmetic)
    (fun _ _ h => h)
    (fun v replacement hreplacement _ =>
      isArithmetic_castTo (hreplacements v replacement hreplacement) v.dtype)
    (fun dtype _ _ ih h => isArithmetic_castTo (ih h) dtype)
    (fun _ _ ih h => isArithmetic_negate (ih h)) (fun _ _ _ h => h.elim)
    (fun _ _ _ _ _ ihl ihr h => isArithmetic_combine h.1 (ihl h.2.1) (ihr h.2.2)) e h

/-- After replacements without variables, what is mentioned was there and was not replaced. -/
theorem mentions_substitute
    (hclosed : ∀ v replacement, replacements v = some replacement →
      ∀ w, replacement.mentions w = false)
    (h : e.mentions v = false ∨ (replacements v).isSome = true) :
    (e.substitute replacements).mentions v = false := by
  refine substitute_induction
    (fun e new => e.mentions v = false ∨ (replacements v).isSome = true →
      new.mentions v = false)
    (fun e hunaffected h => ?_)
    (fun w replacement hreplacement _ => mentions_castTo (hclosed w replacement hreplacement v) _)
    (fun dtype _ _ ih h => mentions_castTo (ih h) dtype) (fun _ _ ih h => mentions_negate (ih h))
    (fun _ _ ih h => mentions_complement (ih h))
    (fun op lhs rhs left right ihl ihr h => ?_) e h
  · rcases h with h | h
    · exact h
    · by_contra hmentions
      rw [Bool.not_eq_false] at hmentions
      rw [anyVar_eq_false hunaffected hmentions] at h
      cases h
  · rw [mentions_binary, Bool.or_eq_false_iff] at h
    exact mentions_combine (ihl (h.imp_left And.left)) (ihr (h.imp_left And.right))

end Expr

end LoopNest
