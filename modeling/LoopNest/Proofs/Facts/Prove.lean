/-
# What is proved is true

A constraint is simplified under the facts that held before it, and its conjuncts are
assumed. So facts come with a history: the scopes that are still open, each with the
facts it was entered under. If the constraint of every open scope is true, then so is
every conjunct that was assumed, by induction over the scopes from the outermost one
inwards, and simplification may be trusted from one scope to the next.
-/

import LoopNest.Facts.Prove
import LoopNest.Proofs.Facts.Simplify

namespace LoopNest

variable {assignment : Assignment}

/-- The conjuncts of a predicate that holds exactly hold exactly. -/
theorem Expr.HoldsExactly.conjuncts {predicate : Expr} (h : predicate.HoldsExactly assignment) :
    ∀ conjunct ∈ predicate.conjuncts, conjunct.HoldsExactly assignment := by
  induction predicate with
  | const dtype literal =>
      obtain ⟨value, hvalue, hne⟩ := h.true
      have hliteral : literal ≠ 0 := fun hzero => hne (by
        rw [← Except.ok.inj hvalue, hzero, DType.truncate_zero])
      simp [Expr.conjuncts, hliteral]
  | binary op lhs rhs ihl ihr =>
      by_cases hop : op = .and
      · subst hop
        obtain ⟨hlhs, hrhs, same, hbool⟩ := h.formed
        obtain ⟨value, hvalue, hne⟩ := h.true
        obtain ⟨-, rfl⟩ | ⟨hleft, hright⟩ := Expr.eval_and_inv (hbool rfl) same hvalue
        · exact absurd rfl hne
        · intro conjunct hmem
          rcases List.mem_append.mp hmem with hmem | hmem
          · exact ihl ⟨hlhs, h.exact.1, 1, hleft, one_ne_zero⟩ conjunct hmem
          · exact ihr ⟨hrhs, (h.exact.2 1 hleft rfl).1, value, hright, hne⟩ conjunct hmem
      · have hself : (Expr.binary op lhs rhs).conjuncts = [.binary op lhs rhs] := by
          cases op <;> first | rfl | exact absurd rfl hop
        rw [hself]
        simpa using h
  | _ => simpa [Expr.conjuncts] using h

namespace Facts

variable {facts : Facts} {scopes : List (Facts × Expr)} {e predicate : Expr} {value : Int}

/-- What is assumed when a constraint holds. A constraint that simplifies to a literal
adds nothing, and otherwise its simplified form is exact. -/
theorem Respects.conjuncts_simplify (hrespects : facts.Respects assignment)
    (hwell : e.WellTyped) (h : facts.SimplifiesExactly assignment e)
    (hvalue : e.eval assignment = .ok value) (hne : value ≠ 0) :
    ∀ conjunct ∈ (facts.simplify e).conjuncts, conjunct.HoldsExactly assignment := by
  have hsimplified := hrespects.eval_simplify hwell h hvalue
  have hformed := (facts.typedAt_simplify hwell).wellTyped.formed
  have hcollapse : ∀ {before : Expr}, before.Exact assignment →
      facts.simplify e = facts.collapse before →
      ∀ conjunct ∈ (facts.simplify e).conjuncts, conjunct.HoldsExactly assignment := by
    intro before hexact heq
    by_cases hconst : (facts.simplify e).isConst = true
    · obtain ⟨literal, hliteral⟩ := Option.isSome_iff_exists.mp hconst
      have hzero : literal ≠ 0 := fun hzero => hne (Except.ok.inj
        (hsimplified.symm.trans (hzero ▸ Expr.eval_of_value? hformed hliteral)))
      rw [Expr.eq_const_of_value? hliteral]
      simp [Expr.conjuncts, hzero]
    · have hkept : facts.collapse before = before := by
        rw [heq] at hconst
        unfold collapse at hconst ⊢
        split
        · rfl
        · rename_i hbefore
          simp only [hbefore] at hconst
          simp only
          split
          · rename_i hpoint
            simp [hpoint, Expr.literal, Expr.isConst, Expr.value?] at hconst
          · rfl
      exact Expr.HoldsExactly.conjuncts
        ⟨hformed, heq ▸ hkept.symm ▸ hexact, value, hsimplified, hne⟩
  cases e with
  | const dtype literal => exact hcollapse h rfl
  | var v => exact hcollapse h rfl
  | cast dtype source => exact hcollapse h.2 rfl
  | neg operand => exact hcollapse h.2.2 rfl
  | not operand => exact hcollapse h.2.2 rfl
  | binary op lhs rhs => exact hcollapse h.2.2.2.2 rfl

/-- The operands of a conjunction. -/
def conjunction? : Expr → Option (Expr × Expr)
  | .binary .and lhs rhs => some (lhs, rhs)
  | _ => none

/-- Everything that the search for a proof simplifies is simplified exactly. The right
side of a conjunction matters only where the left one is true. -/
def ProvesExactly (facts : Facts) (assignment : Assignment) : Nat → Expr → Prop
  | 0, _ => True
  | depth + 1, predicate =>
    facts.isAssumed predicate = false →
      facts.SimplifiesExactly assignment predicate ∧
        ∀ sides ∈ conjunction? (facts.simplify predicate),
          ProvesExactly facts assignment depth sides.1 ∧
            sides.1.IfValue assignment fun left =>
              left ≠ 0 → ProvesExactly facts assignment depth sides.2

instance decidableProvesExactly (facts : Facts) (assignment : Assignment) :
    (depth : Nat) → DecidablePred (facts.ProvesExactly assignment depth)
  | 0, _ => isTrue trivial
  | depth + 1, predicate =>
    haveI := decidableProvesExactly facts assignment depth
    inferInstanceAs (Decidable (facts.isAssumed predicate = false →
      facts.SimplifiesExactly assignment predicate ∧
        ∀ sides ∈ conjunction? (facts.simplify predicate),
          facts.ProvesExactly assignment depth sides.1 ∧
            sides.1.IfValue assignment fun left =>
              left ≠ 0 → facts.ProvesExactly assignment depth sides.2))

/-- A predicate for which a proof is found is true wherever it has a value. -/
theorem Respects.provesWithin_sound (hrespects : facts.Respects assignment)
    (htrue : ∀ constraint ∈ facts.constraints,
      ∃ value, constraint.eval assignment = .ok value ∧ value ≠ 0)
    {depth : Nat} (htyped : predicate.TypedAt .bool)
    (h : facts.ProvesExactly assignment depth predicate)
    (hproves : facts.provesWithin depth predicate = true)
    (hvalue : predicate.eval assignment = .ok value) : value = 1 := by
  have hassumed : ∀ {constraint : Expr} {value : Int}, constraint.dtype = .bool →
      facts.isAssumed constraint = true → constraint.eval assignment = .ok value → value = 1 := by
    intro constraint value hbool hmem hvalue
    obtain ⟨truth, htruth, hne⟩ := htrue constraint (of_decide_eq_true hmem)
    have hcontains := Expr.eval_contains hvalue
    rw [hbool, DType.contains_bool_iff] at hcontains
    exact hcontains.resolve_left (Except.ok.inj (htruth.symm.trans hvalue) ▸ hne)
  induction depth generalizing predicate value with
  | zero => simp [provesWithin] at hproves
  | succ depth ih =>
      unfold provesWithin at hproves
      split at hproves
      · rename_i hmem
        exact hassumed htyped.dtype_eq hmem hvalue
      · rename_i hnot
        obtain ⟨hexact, hsides⟩ := h (Bool.eq_false_iff.mpr hnot)
        have hsimplified := hrespects.eval_simplify htyped.wellTyped hexact hvalue
        have htyped' := htyped.dtype_eq ▸ facts.typedAt_simplify htyped.wellTyped
        generalize facts.simplify predicate = simplified at *
        simp only at hproves
        split at hproves
        · rename_i dtype literal
          obtain rfl : literal = value := Except.ok.inj ((Expr.eval_of_value?
            htyped'.wellTyped.formed (show (Expr.const dtype literal).value? = some literal from
              rfl)).symm.trans hsimplified)
          have hcontains := Expr.eval_contains hsimplified
          rw [htyped'.dtype_eq, DType.contains_bool_iff] at hcontains
          exact hcontains.resolve_left (of_decide_eq_true hproves)
        · rename_i lhs rhs
          obtain ⟨⟨⟨hlhs, hrhs, same, hbool⟩, hcl, hcr⟩, -⟩ := htyped'
          obtain ⟨hleft, hright⟩ := hsides (lhs, rhs) rfl
          rw [Bool.and_eq_true] at hproves
          rcases Expr.eval_and_inv (hbool rfl) same hsimplified with ⟨heval, -⟩ | ⟨heval, hother⟩
          · exact absurd (ih ⟨⟨hlhs, hcl⟩, hbool rfl⟩ hleft hproves.1 heval) zero_ne_one
          · exact ih ⟨⟨hrhs, hcr⟩, same ▸ hbool rfl⟩ (hright 1 heval one_ne_zero) hproves.2 hother
        · exact hassumed htyped'.dtype_eq hproves hsimplified

/-- Facts with the scopes that are still open, innermost first, each with the facts
under which it was entered. A variable is bound once only; a range bound inside a
scope outlives it. -/
inductive Reached : Facts → List (Facts × Expr) → Prop
  | start : Reached empty []
  | bind {facts : Facts} {scopes : List (Facts × Expr)} (v : Var) (range : Range) (unbound : facts.ranges v = none)
      (before : Reached facts scopes) : Reached (facts.bind v range) scopes
  | enter {facts : Facts} {scopes : List (Facts × Expr)} (constraint : Expr) (before : Reached facts scopes) :
      Reached (facts.assume constraint) ((facts, constraint) :: scopes)
  | leave {facts outer : Facts} {scopes : List (Facts × Expr)} {constraint : Expr}
      (before : Reached facts ((outer, constraint) :: scopes)) :
      Reached (facts.release outer.constraints.length) scopes

/-- The constraints are those that the open scopes have added, and every range that
was there when a scope was entered is still there. -/
def Tracks (ranges : Var → Option Range) : List (Facts × Expr) → List Expr → Prop
  | [], constraints => constraints = []
  | (outer, constraint) :: scopes, constraints =>
    constraints = outer.constraints ++ (outer.simplify constraint).conjuncts ∧
      (∀ v range, outer.ranges v = some range → ranges v = some range) ∧
      Tracks ranges scopes outer.constraints

theorem Tracks.mono {ranges ranges' : Var → Option Range} {constraints : List Expr}
    (hmono : ∀ v range, ranges v = some range → ranges' v = some range)
    (h : Tracks ranges scopes constraints) : Tracks ranges' scopes constraints := by
  induction scopes generalizing constraints with
  | nil => exact h
  | cons scope rest ih =>
      obtain ⟨hconstraints, hranges, hrest⟩ := h
      exact ⟨hconstraints, fun v range hrange => hmono v range (hranges v range hrange), ih hrest⟩

/-- However facts were reached, they are what their open scopes say. -/
theorem Reached.tracks (h : Reached facts scopes) :
    Tracks facts.ranges scopes facts.constraints := by
  induction h with
  | start => rfl
  | bind v range unbound before ih =>
      refine ih.mono fun other found hfound => ?_
      have hother : other ≠ v := fun heq => by
        rw [heq, unbound] at hfound
        cases hfound
      simpa [Facts.bind, hother] using hfound
  | enter constraint before ih => exact ⟨rfl, fun _ _ hrange => hrange, ih⟩
  | leave before ih =>
      obtain ⟨hconstraints, -, hrest⟩ := ih
      simpa [Facts.release, hconstraints] using hrest

/-- The constraint of a scope is true, and simplifying it was exact. -/
structure EntersExactly (assignment : Assignment) (outer : Facts) (constraint : Expr) : Prop where
  wellTyped : constraint.WellTyped
  true : ∃ value, constraint.eval assignment = .ok value ∧ value ≠ 0
  exact : outer.SimplifiesExactly assignment constraint

/-- If the constraint of every open scope is true, then so is all that was assumed. -/
theorem Tracks.forall_holdsExactly {constraints : List Expr}
    (hranges : facts.RangesHold assignment)
    (hscopes : ∀ scope ∈ scopes, EntersExactly assignment scope.1 scope.2)
    (h : Tracks facts.ranges scopes constraints) :
    ∀ constraint ∈ constraints, constraint.HoldsExactly assignment := by
  induction scopes generalizing constraints with
  | nil =>
      rw [show constraints = [] from h]
      simp
  | cons scope rest ih =>
      obtain ⟨rfl, hkept, hrest⟩ := h
      rw [List.forall_mem_cons] at hscopes
      have houter := ih hscopes.2 hrest
      have hrespects : scope.1.Respects assignment :=
        ⟨fun v range x hrange => hranges v range x (hkept v range hrange),
          fun constraint hmem => .inr (houter constraint hmem)⟩
      obtain ⟨hwell, ⟨value, hvalue, hne⟩, hexact⟩ := hscopes.1
      intro constraint hmem
      rcases List.mem_append.mp hmem with hmem | hmem
      · exact houter constraint hmem
      · exact hrespects.conjuncts_simplify hwell hexact hvalue hne constraint hmem

/-- Simplifying and proving are sound, whatever was bound and assumed before. An
expression keeps its value, and a truth value that is proved is one. -/
theorem Reached.simplify_and_proves_sound (hreached : Reached facts scopes)
    (hranges : facts.RangesHold assignment)
    (hscopes : ∀ scope ∈ scopes, EntersExactly assignment scope.1 scope.2)
    (hwell : e.WellTyped) (hvalue : e.eval assignment = .ok value) :
    (facts.SimplifiesExactly assignment e → (facts.simplify e).eval assignment = .ok value) ∧
      (e.dtype = .bool → facts.ProvesExactly assignment (e.conjunctionCount + 1) e →
        facts.proves e = true → value = 1) := by
  have hholds := hreached.tracks.forall_holdsExactly hranges hscopes
  have hrespects : facts.Respects assignment :=
    ⟨hranges, fun constraint hmem => .inr (hholds constraint hmem)⟩
  refine ⟨fun hexact => hrespects.eval_simplify hwell hexact hvalue, fun hbool hexact hproves => ?_⟩
  exact hrespects.provesWithin_sound (fun constraint hmem => (hholds constraint hmem).true)
    ⟨hwell, hbool⟩ hexact hproves hvalue

/-- Inside the scope of `row < rows`, with a column below four bound before, the row of a
flattened index is found again, and that it is a row is proved. -/
theorem simplify_and_proves_sound_of_flattened :
    let row := Expr.var ⟨.parameter 0, "row", .int32⟩
    let column : Var := ⟨.parameter 1, "column", .int32⟩
    let rows := Expr.var ⟨.parameter 2, "rows", .int32⟩
    let facts := (empty.bind column (.constant .int32 4)).assume (row.lt rows)
    let assignment : Assignment := fun v =>
      if v = column then some 3 else if v.name = "row" then some 6 else some 7
    let e := (((row.mul (.literal .int32 4)).add (.var column)).floorDiv (.literal .int32 4)).lt rows
    facts.simplify e = row.lt rows ∧ facts.proves e = true ∧
      ∃ value, e.eval assignment = .ok value ∧ (facts.simplify e).eval assignment = .ok value ∧
        value = 1 := by
  intro row column rows facts assignment e
  have hranges : facts.RangesHold assignment := by
    intro v range x hrange hx
    obtain ⟨rfl, rfl⟩ : v = column ∧ range = .constant .int32 4 := by
      simp only [facts, assume, Facts.bind, empty, Option.ite_none_right_eq_some,
        Option.some.injEq] at hrange
      exact ⟨hrange.1, hrange.2.symm⟩
    obtain rfl : 3 = x := Except.ok.inj ((show (Expr.var column).eval assignment = .ok 3 by
      decide).symm.trans hx)
    exact ⟨⟨by decide, by decide⟩, ⟨by decide, by decide⟩, 0, 4, by decide, by decide, by decide,
      by decide⟩
  have hreached : Reached facts [(empty.bind column (.constant .int32 4), row.lt rows)] :=
    .enter _ (.bind column _ rfl .start)
  have hscopes : ∀ scope ∈ [(empty.bind column (.constant .int32 4), row.lt rows)],
      EntersExactly assignment scope.1 scope.2 := by
    rw [List.forall_mem_singleton]
    exact ⟨by decide +kernel, ⟨1, by decide +kernel, by decide⟩, by decide +kernel⟩
  have hvalue : e.eval assignment = .ok 1 := by decide +kernel
  have hproves : facts.proves e = true := by decide +kernel
  obtain ⟨hsimplify, hproved⟩ :=
    Reached.simplify_and_proves_sound hreached hranges hscopes (by decide +kernel) hvalue
  exact ⟨by decide +kernel, hproves, 1, hvalue, hsimplify (by decide +kernel),
    hproved (by decide +kernel) (by decide +kernel) hproves⟩

/-- The provision that variables are finite cannot be dropped, although nothing wraps here
and no literal and no node comes near the ends of the words. The bounds of two different
variables saturate to the same infinity, so their comparison counts as true, and the
constraint that was entered first turns that into a wrong bound of a third variable. -/
theorem simplify_misled_by_saturated_variables :
    let x := Expr.var ⟨.parameter 0, "x", .int64⟩
    let w := Expr.var ⟨.parameter 1, "w", .int64⟩
    let y := Expr.var ⟨.parameter 2, "y", .int64⟩
    let low := Expr.literal .int64 (-9223372036854775806)
    let first := ((x.eq w).castTo .int64).le y
    let second := y.le (.literal .int64 1)
    let facts := (((empty.assume first).assume second).assume (x.lt low)).assume (w.lt low)
    let assignment : Assignment := fun v =>
      if v.name = "x" then some (-9223372036854775807)
      else if v.name = "w" then some (-9223372036854775808) else some 0
    facts.constraints = [first, second, x.lt low, w.lt low] ∧
      (∀ constraint ∈ facts.constraints, constraint.eval assignment = .ok 1) ∧
      (x.sub low).normalize.eval assignment = .ok (-1) ∧
      (w.sub low).normalize.eval assignment = .ok (-2) ∧
      (x.sub w).normalize.eval assignment = .ok 1 ∧
      y.eval assignment = .ok 0 ∧ (facts.simplify y).eval assignment = .ok 1 := by
  decide +kernel

end Facts

end LoopNest
