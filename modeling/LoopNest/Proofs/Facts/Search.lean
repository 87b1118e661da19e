/-
# The search for a proof ends

The conjuncts of a simplified conjunction are simplified again before they are proved, each under
the same ranges and constraints. So the search for a proof does not descend along the structure of
the predicate, and rewriting could in principle bring back what splitting has taken apart. It does
not: the number of conjunctions is a size, which simplifying does not increase, and each side of a
conjunction has fewer of them than the conjunction.

Hence the depth that limits the search is never reached. The answer is the one that the recursion
without a limit would give, and nothing else solves the equation of that recursion.
-/

import LoopNest.Facts.Prove
import LoopNest.Proofs.Facts.Sizes
import Mathlib.Logic.Relation

namespace LoopNest

open LoopNest.Expr (conjunctionCount)

namespace Expr

/-- Each conjunction counts for one, and nothing else counts. -/
theorem isSize_conjunctionCount :
    IsSize (fun e => (e.conjunctionCount : ℕ∞)) fun op => if op = .and then 1 else 0 where
  literal _ _ := rfl
  ofCast _ _ := le_rfl
  castTo e dtype := by
    unfold Expr.castTo
    split
    · exact le_rfl
    · split
      · exact zero_le
      · exact le_rfl
  neg _ := rfl
  not _ := rfl
  binary op lhs rhs := by
    rw [conjunctionCount]
    split <;> simp
  weight op hop := by
    apply if_neg
    rintro rfl
    cases hop

end Expr

namespace Facts

variable {facts : Facts} {predicate conjunct : Expr}

/-- Simplifying adds no conjunction, under any ranges and constraints. -/
theorem conjunctionCount_simplify_le (facts : Facts) (e : Expr) :
    (facts.simplify e).conjunctionCount ≤ e.conjunctionCount :=
  Nat.cast_le.mp (Expr.isSize_conjunctionCount.simplify_le facts e)

/-- A predicate opens the sides of the conjunction that it simplifies to. The search for its proof
goes on to these and to nothing else. -/
inductive Opens (facts : Facts) (predicate : Expr) : Expr → Prop
  | left {lhs rhs : Expr} : facts.simplify predicate = .binary .and lhs rhs →
      Opens facts predicate lhs
  | right {lhs rhs : Expr} : facts.simplify predicate = .binary .and lhs rhs →
      Opens facts predicate rhs

/-- Rewriting keeps the number of conjunctions or lowers it, and splitting takes one away. -/
theorem Opens.conjunctionCount_lt (h : facts.Opens predicate conjunct) :
    conjunct.conjunctionCount < predicate.conjunctionCount := by
  have hle := facts.conjunctionCount_simplify_le predicate
  cases h with
  | left hsimplified =>
      rw [hsimplified, conjunctionCount, if_pos rfl] at hle
      omega
  | right hsimplified =>
      rw [hsimplified, conjunctionCount, if_pos rfl] at hle
      omega

/-- No chain of predicates, each opened by the one before under facts of its own, goes on forever. -/
theorem wellFounded_opens :
    WellFounded fun conjunct predicate : Expr => ∃ facts : Facts, facts.Opens predicate conjunct :=
  Subrelation.wf (fun ⟨_, h⟩ => h.conjunctionCount_lt) (measure conjunctionCount).wf

/-- Along such a chain the number of conjunctions falls. -/
theorem conjunctionCount_lt_of_transGen
    (h : Relation.TransGen (fun predicate conjunct => ∃ facts : Facts, facts.Opens predicate conjunct)
      predicate conjunct) : conjunct.conjunctionCount < predicate.conjunctionCount := by
  induction h with
  | single hopens =>
      obtain ⟨facts, hopens⟩ := hopens
      exact hopens.conjunctionCount_lt
  | tail _ hopens ih =>
      obtain ⟨facts, hopens⟩ := hopens
      exact hopens.conjunctionCount_lt.trans ih

/-- One step of the search, which leaves the conjuncts that it opens to another search. -/
def searchStep (facts : Facts) (search : Expr → Bool) (predicate : Expr) : Bool :=
  if facts.isAssumed predicate then true
  else
    let simplified := facts.simplify predicate
    match simplified with
    | .const _ value => decide (value ≠ 0)
    | .binary .and lhs rhs => search lhs && search rhs
    | _ => facts.isAssumed simplified

theorem provesWithin_succ (facts : Facts) (depth : Nat) :
    facts.provesWithin (depth + 1) = facts.searchStep (facts.provesWithin depth) := by
  funext predicate
  rfl

/-- A step depends on the search only at the conjuncts that it opens. -/
theorem searchStep_congr {search other : Expr → Bool}
    (h : ∀ conjunct, facts.Opens predicate conjunct → search conjunct = other conjunct) :
    facts.searchStep search predicate = facts.searchStep other predicate := by
  unfold searchStep
  split
  · rfl
  · simp only
    split
    · rfl
    · rename_i lhs rhs hsimplified
      rw [h lhs (.left hsimplified), h rhs (.right hsimplified)]
    · rfl

/-- A search that is deep enough for the conjunctions of a predicate is not limited by its depth.
The induction is on the depth, and each conjunct needs less of it than the predicate. -/
theorem provesWithin_eq_proves {depth : Nat} (h : predicate.conjunctionCount < depth) :
    facts.provesWithin depth predicate = facts.proves predicate := by
  have hsame : ∀ first second predicate, conjunctionCount predicate < first →
      conjunctionCount predicate < second →
      facts.provesWithin first predicate = facts.provesWithin second predicate := by
    intro first
    induction first with
    | zero => exact fun _ _ hfirst => absurd hfirst (Nat.not_lt_zero _)
    | succ first ih =>
        intro second predicate hfirst hsecond
        obtain ⟨second, rfl⟩ := Nat.exists_eq_add_one_of_ne_zero (Nat.ne_zero_of_lt hsecond)
        rw [provesWithin_succ, provesWithin_succ]
        apply searchStep_congr
        intro conjunct hopens
        have hlt := hopens.conjunctionCount_lt
        exact ih second conjunct (by omega) (by omega)
  exact hsame _ _ _ h (Nat.lt_succ_self _)

/-- The search for a proof solves the equation of the recursion without a limit. -/
theorem proves_eq_searchStep (facts : Facts) : facts.proves = facts.searchStep facts.proves := by
  funext predicate
  rw [proves, provesWithin_succ]
  apply searchStep_congr
  intro conjunct hopens
  exact provesWithin_eq_proves hopens.conjunctionCount_lt

/-- The recursion has no other solution. -/
theorem eq_proves_of_eq_searchStep {search : Expr → Bool} (h : search = facts.searchStep search) :
    search = facts.proves := by
  funext predicate
  induction predicate using wellFounded_opens.induction with
  | _ predicate ih =>
      rw [h, proves_eq_searchStep]
      apply searchStep_congr
      intro conjunct hopens
      exact ih conjunct ⟨facts, hopens⟩

/-- The search for a proof ends on every predicate. Simplifying never adds a conjunction; every
conjunct that the search goes on to has fewer conjunctions than the predicate it was opened by; so
no chain of rewriting and splitting is infinite or comes back to where it was, whatever the ranges
and constraints are. The recursion without a limit has therefore exactly one answer for each
predicate, which is the one given, and any depth beyond the number of conjunctions finds it. -/
theorem proof_search_ends :
    (∀ (facts : Facts) (e : Expr),
      (facts.simplify e).conjunctionCount ≤ e.conjunctionCount) ∧
    (∀ (facts : Facts) (predicate conjunct : Expr), facts.Opens predicate conjunct →
      conjunct.conjunctionCount < predicate.conjunctionCount) ∧
    (WellFounded fun conjunct predicate : Expr =>
      ∃ facts : Facts, facts.Opens predicate conjunct) ∧
    (∀ e : Expr, ¬Relation.TransGen
      (fun predicate conjunct => ∃ facts : Facts, facts.Opens predicate conjunct) e e) ∧
    (∀ (facts : Facts) (search : Expr → Bool),
      search = facts.searchStep search ↔ search = facts.proves) ∧
    ∀ (facts : Facts) (predicate : Expr) (depth : Nat), predicate.conjunctionCount < depth →
      facts.provesWithin depth predicate = facts.proves predicate := by
  refine ⟨conjunctionCount_simplify_le, fun _ _ _ h => h.conjunctionCount_lt, wellFounded_opens,
    fun e hcycle => (conjunctionCount_lt_of_transGen hcycle).false, fun facts search => ⟨?_, ?_⟩,
    fun _ _ _ h => provesWithin_eq_proves h⟩
  · exact eq_proves_of_eq_searchStep
  · rintro rfl
    exact facts.proves_eq_searchStep

end Facts

end LoopNest
