/-
# Points of a nest

A point gives every loop of a nest an integer. Its values follow the relations when
each consumed loop has the value that is put together from the loops made of it. The
leaves of such a point then determine everything above them, and the roots determine
everything below as long as every loop stays inside its range.

Ranges cover a nest when the loops made of a split have enough iterations together
and every other relation keeps the number of iterations. Then every choice of roots
inside their ranges comes from a point that stays inside all ranges. In the other
direction a point whose leaves stay inside can only leave its ranges where a split
has too many iterations.
-/

import Mathlib.Algebra.Order.Ring.Int
import LoopNest.Proofs.Flow.Passes
import LoopNest.Proofs.Stage.IterMap

namespace LoopNest

/-- Ranges of loops, each with its least value and its number of values. -/
structure Box where
  low : IterId → Int
  extent : IterId → Int

namespace Box

variable {box : Box} {value value' : IterId → Int} {id : IterId} {stage : Stage}
  {relation : Relation}

/-- A value lies in the range of a loop. -/
def Contains (box : Box) (id : IterId) (x : Int) : Prop :=
  box.low id ≤ x ∧ x < box.low id + box.extent id

/-- The values around a relation are put together as the relation says. -/
def Follows (box : Box) (value : IterId → Int) : Relation → Prop
  | .split parent outer inner _ =>
    value parent - box.low parent = value outer * box.extent inner + value inner
  | .fuse outer inner fused =>
    value outer - box.low outer = value fused / box.extent inner ∧
      value inner - box.low inner = value fused % box.extent inner
  | .rebase parent rebased => value parent - box.low parent = value rebased
  | .singleton _ => True

/-- What a relation makes starts at zero and has enough iterations for what it consumes,
and exactly as many unless it is a split. -/
def Covers (box : Box) : Relation → Prop
  | .split parent outer inner _ =>
    box.low outer = 0 ∧ box.low inner = 0 ∧ box.extent parent ≤ box.extent outer * box.extent inner
  | .fuse outer inner fused =>
    box.low fused = 0 ∧ box.extent fused = box.extent outer * box.extent inner
  | .rebase parent rebased => box.low rebased = 0 ∧ box.extent rebased = box.extent parent
  | .singleton iter => box.low iter = 0 ∧ box.extent iter = 1

/-- Every loop has a value in its range, and every relation is covered. -/
structure Fits (box : Box) (stage : Stage) : Prop where
  positive : ∀ id ∈ stage.defined, 1 ≤ box.extent id
  covers : ∀ relation ∈ stage.relations, box.Covers relation

/-- A split has more iterations than its parent. -/
def IsLoose (box : Box) : Relation → Prop
  | .split parent outer inner _ => box.extent parent < box.extent outer * box.extent inner
  | _ => False

/-- Two numbers below an extent and their multiples are told apart by the sum. -/
theorem eq_and_eq_of_mul_add_eq {outer outer' inner inner' extent : Int} (h0 : 0 ≤ inner)
    (hlt : inner < extent) (h0' : 0 ≤ inner') (hlt' : inner' < extent)
    (h : outer * extent + inner = outer' * extent + inner') : outer = outer' ∧ inner = inner' := by
  have hquotient : ∀ {a b : Int}, 0 ≤ b → b < extent → (a * extent + b) / extent = a :=
    fun {a b} hb hlt => by
      rw [Int.add_comm, Int.add_mul_ediv_right b a (by omega), Int.ediv_eq_zero_of_lt hb hlt,
        zero_add]
  have houter : outer = outer' := by
    rw [← hquotient (a := outer) h0 hlt, h, hquotient h0' hlt']
  subst houter
  exact ⟨rfl, by omega⟩

/-- One relation upward: what it consumes stays inside when what it makes does, unless
the relation is a loose split. -/
theorem Fits.contains_inputs (hfits : box.Fits stage) (h : stage.Linked)
    (hrelation : relation ∈ stage.relations) (hfollows : box.Follows value relation)
    (hloose : box.IsLoose relation →
      ∀ id ∈ relation.inputs, value id < box.low id + box.extent id)
    (houtputs : ∀ id ∈ relation.outputs, box.Contains id (value id)) :
    ∀ id ∈ relation.inputs, box.Contains id (value id) := by
  have hpositive : ∀ id ∈ relation.inputs, 1 ≤ box.extent id :=
    fun id hid => hfits.positive id (h.mem_defined_of_mem_inputs hrelation hid)
  have hcovers := hfits.covers relation hrelation
  cases relation with
  | split parent outer inner size =>
      simp only [Relation.inputs, Relation.outputs, List.forall_mem_singleton,
        List.forall_mem_cons] at *
      obtain ⟨hlow, hlow', hextent⟩ := hcovers
      obtain ⟨⟨houter, houter'⟩, hinner, hinner'⟩ := houtputs
      rw [hlow] at houter houter'
      rw [hlow'] at hinner hinner'
      simp only [Follows] at hfollows
      have hproduct : 0 ≤ value outer * box.extent inner := mul_nonneg houter (by omega)
      refine ⟨by omega, ?_⟩
      by_cases hlt : box.extent parent < box.extent outer * box.extent inner
      · exact hloose hlt
      · have hlast : value outer * box.extent inner ≤ (box.extent outer - 1) * box.extent inner :=
          mul_le_mul_of_nonneg_right (by omega) (by omega)
        rw [sub_mul, one_mul] at hlast
        omega
  | fuse outer inner fused =>
      simp only [Relation.inputs, Relation.outputs, List.forall_mem_singleton,
        List.forall_mem_cons] at *
      obtain ⟨hlow, hextent⟩ := hcovers
      obtain ⟨hfused, hfused'⟩ := houtputs
      obtain ⟨hquotient, hremainder⟩ := hfollows
      rw [hlow] at hfused hfused'
      have h0 := Int.ediv_nonneg hfused (by omega : 0 ≤ box.extent inner)
      have hlt : value fused / box.extent inner < box.extent outer :=
        Int.ediv_lt_of_lt_mul (by omega) (by rw [← hextent]; omega)
      have h0' := Int.emod_nonneg (value fused) (by omega : box.extent inner ≠ 0)
      have hlt' := Int.emod_lt_of_pos (value fused) (by omega : 0 < box.extent inner)
      exact ⟨⟨by omega, by omega⟩, by omega, by omega⟩
  | rebase parent rebased =>
      simp only [Relation.inputs, Relation.outputs, List.forall_mem_singleton] at *
      obtain ⟨hlow, hextent⟩ := hcovers
      obtain ⟨hrebased, hrebased'⟩ := houtputs
      simp only [Follows] at hfollows
      exact ⟨by omega, by omega⟩
  | singleton iter => simp [Relation.inputs]

/-- A point whose leaves stay inside stays inside, if the parents of loose splits do. -/
theorem Fits.contains_of_leaves (hfits : box.Fits stage) (h : stage.Linked)
    (hfollows : ∀ relation ∈ stage.relations, box.Follows value relation)
    (hloose : ∀ relation ∈ stage.relations, box.IsLoose relation →
      ∀ id ∈ relation.inputs, value id < box.low id + box.extent id)
    (hleaves : ∀ id ∈ stage.leaves, box.Contains id (value id)) :
    ∀ id ∈ stage.defined, box.Contains id (value id) := by
  refine h.induction_up hleaves fun relation hrelation houtputs => ?_
  exact hfits.contains_inputs h hrelation (hfollows relation hrelation)
    (hloose relation hrelation) houtputs

/-- A point whose leaves are not before the start of their ranges is nowhere before it. -/
theorem Fits.low_le_of_leaves (hfits : box.Fits stage) (h : stage.Linked)
    (hfollows : ∀ relation ∈ stage.relations, box.Follows value relation)
    (hleaves : ∀ id ∈ stage.leaves, box.low id ≤ value id) :
    ∀ id ∈ stage.defined, box.low id ≤ value id := by
  refine h.induction_up hleaves fun relation hrelation houtputs => ?_
  have hrelated := hfollows relation hrelation
  have hcovers := hfits.covers relation hrelation
  cases relation with
  | split parent outer inner size =>
      simp only [Relation.inputs, Relation.outputs, List.forall_mem_singleton,
        List.forall_mem_cons] at *
      obtain ⟨hlow, hlow', -⟩ := hcovers
      have hinner := hfits.positive inner
        (Stage.mem_defined_of_mem_outputs hrelation (by simp [Relation.outputs]))
      have hproduct : 0 ≤ value outer * box.extent inner := mul_nonneg (by omega) (by omega)
      simp only [Follows] at hrelated
      omega
  | fuse outer inner fused =>
      have hinner := hfits.positive inner
        (h.mem_defined_of_mem_inputs hrelation (by simp [Relation.inputs]))
      simp only [Relation.inputs, Relation.outputs, List.forall_mem_singleton,
        List.forall_mem_cons] at *
      obtain ⟨hlow, -⟩ := hcovers
      obtain ⟨hquotient, hremainder⟩ := hrelated
      have h0 := Int.ediv_nonneg (by omega : 0 ≤ value fused) (by omega : 0 ≤ box.extent inner)
      have h0' := Int.emod_nonneg (value fused) (by omega : box.extent inner ≠ 0)
      exact ⟨by omega, by omega⟩
  | rebase parent rebased =>
      simp only [Relation.inputs, Relation.outputs, List.forall_mem_singleton, Follows] at *
      obtain ⟨hlow, -⟩ := hcovers
      omega
  | singleton iter => simp [Relation.inputs]

/-- The leaves of a point determine all its values. -/
theorem eq_of_leaves (h : stage.Linked)
    (hfollows : ∀ relation ∈ stage.relations, box.Follows value relation)
    (hfollows' : ∀ relation ∈ stage.relations, box.Follows value' relation)
    (hleaves : ∀ id ∈ stage.leaves, value id = value' id) :
    ∀ id ∈ stage.defined, value id = value' id := by
  refine h.induction_up hleaves fun relation hrelation houtputs => ?_
  have hleft := hfollows relation hrelation
  have hright := hfollows' relation hrelation
  cases relation with
  | split parent outer inner size =>
      simp only [Relation.inputs, Relation.outputs, List.forall_mem_singleton,
        List.forall_mem_cons, Follows] at *
      rw [houtputs.1, houtputs.2] at hleft
      omega
  | fuse outer inner fused =>
      simp only [Relation.inputs, Relation.outputs, List.forall_mem_singleton,
        List.forall_mem_cons, Follows] at *
      rw [houtputs] at hleft
      exact ⟨by omega, by omega⟩
  | rebase parent rebased =>
      simp only [Relation.inputs, Relation.outputs, List.forall_mem_singleton, Follows] at *
      omega
  | singleton iter => simp [Relation.inputs]

/-- The roots of a point that stays inside determine all its values. -/
theorem Fits.eq_of_roots (hfits : box.Fits stage) (h : stage.Linked)
    (hfollows : ∀ relation ∈ stage.relations, box.Follows value relation)
    (hfollows' : ∀ relation ∈ stage.relations, box.Follows value' relation)
    (hcontains : ∀ id ∈ stage.defined, box.Contains id (value id))
    (hcontains' : ∀ id ∈ stage.defined, box.Contains id (value' id))
    (hroots : ∀ id ∈ stage.roots, value id = value' id) :
    ∀ id ∈ stage.defined, value id = value' id := by
  refine h.induction_down hroots fun relation hrelation hinputs => ?_
  have hleft := hfollows relation hrelation
  have hright := hfollows' relation hrelation
  have hcovers := hfits.covers relation hrelation
  have hinside : ∀ id ∈ relation.outputs, box.Contains id (value id) :=
    fun id hid => hcontains id (Stage.mem_defined_of_mem_outputs hrelation hid)
  have hinside' : ∀ id ∈ relation.outputs, box.Contains id (value' id) :=
    fun id hid => hcontains' id (Stage.mem_defined_of_mem_outputs hrelation hid)
  cases relation with
  | split parent outer inner size =>
      simp only [Relation.inputs, Relation.outputs, List.forall_mem_singleton,
        List.forall_mem_cons, Follows] at *
      obtain ⟨-, hlow, -⟩ := hcovers
      obtain ⟨-, hinner, hinner'⟩ := hinside
      obtain ⟨-, hother, hother'⟩ := hinside'
      rw [hlow] at hinner hinner' hother hother'
      rw [hinputs, hright] at hleft
      exact eq_and_eq_of_mul_add_eq hinner (by omega) hother (by omega) hleft.symm
  | fuse outer inner fused =>
      simp only [Relation.inputs, Relation.outputs, List.forall_mem_singleton,
        List.forall_mem_cons, Follows] at *
      have hquotient : value fused / box.extent inner = value' fused / box.extent inner := by omega
      have hremainder : value fused % box.extent inner = value' fused % box.extent inner := by omega
      rw [← Int.mul_ediv_add_emod (value fused) (box.extent inner), hquotient, hremainder,
        Int.mul_ediv_add_emod]
  | rebase parent rebased =>
      simp only [Relation.inputs, Relation.outputs, List.forall_mem_singleton, Follows] at *
      omega
  | singleton iter =>
      simp only [Relation.outputs, List.forall_mem_singleton] at *
      obtain ⟨hlow, hextent⟩ := hcovers
      obtain ⟨hiter, hiter'⟩ := hinside
      obtain ⟨hother, hother'⟩ := hinside'
      omega

/-- Take the values that a relation consumes apart into those of what it makes. -/
def takeApart (box : Box) (known : IterMap Int) : Relation → IterMap Int
  | .split parent outer inner _ =>
    let offset := known.getDefault parent - box.low parent
    (known.insert outer (offset / box.extent inner)).insert inner (offset % box.extent inner)
  | .fuse outer inner fused =>
    known.insert fused ((known.getDefault outer - box.low outer) * box.extent inner +
      (known.getDefault inner - box.low inner))
  | .rebase parent rebased => known.insert rebased (known.getDefault parent - box.low parent)
  | .singleton iter => known.insert iter 0

/-- Known values stay inside when one more value inside becomes known. -/
theorem contains_insert {known : IterMap Int} {id : IterId} {x : Int}
    (hinside : ∀ id ∈ stage.defined, ∀ x ∈ known.get? id, box.Contains id x)
    (hx : box.Contains id x) :
    ∀ other ∈ stage.defined, ∀ y ∈ (known.insert id x).get? other, box.Contains other y := by
  intro other hother y hy
  rw [IterMap.get?_insert] at hy
  split at hy
  · rename_i heq
    exact heq ▸ Option.some.inj hy ▸ hx
  · exact hinside other hother y hy

/-- One relation downward: what it makes of values inside follows it and stays inside. -/
theorem Fits.writes_takeApart (hfits : box.Fits stage) (h : stage.Linked)
    (hrelation : relation ∈ stage.relations) {known : IterMap Int}
    (hinside : ∀ id ∈ stage.defined, ∀ x ∈ known.get? id, box.Contains id x)
    (hready : ∀ id ∈ relation.inputs, (known.get? id).isSome) :
    Stage.Writes IterMap.get?
      (fun known => ∀ id ∈ stage.defined, ∀ x ∈ known.get? id, box.Contains id x)
      (fun values relation => box.Follows (fun id => (values id).getD 0) relation)
      [relation] relation.outputs known (box.takeApart known relation) := by
  have hcovers := hfits.covers relation hrelation
  have hpositive : ∀ id ∈ relation.inputs, 1 ≤ box.extent id :=
    fun id hid => hfits.positive id (h.mem_defined_of_mem_inputs hrelation hid)
  have hpositive' : ∀ id ∈ relation.outputs, 1 ≤ box.extent id :=
    fun id hid => hfits.positive id (Stage.mem_defined_of_mem_outputs hrelation hid)
  have hknown : ∀ id ∈ relation.inputs, ∃ x, known.get? id = some x ∧ box.Contains id x := by
    intro id hid
    obtain ⟨x, hx⟩ := Option.isSome_iff_exists.mp (hready id hid)
    exact ⟨x, hx, hinside id (h.mem_defined_of_mem_inputs hrelation hid) x hx⟩
  have hnodup := h.nodup_outputs hrelation
  have hapart := h.apart relation hrelation
  cases relation with
  | split parent outer inner size =>
      simp only [Relation.inputs, Relation.outputs, List.nodup_cons, List.mem_cons,
        List.not_mem_nil, or_false, not_or, forall_eq, forall_eq_or_imp] at *
      obtain ⟨x, hx, hlow, hhigh⟩ := hknown
      obtain ⟨hlow', hlow'', hextent⟩ := hcovers
      have hpos : 0 < box.extent inner := by omega
      have hquotient : 0 ≤ (x - box.low parent) / box.extent inner :=
        Int.ediv_nonneg (by omega) hpos.le
      have hbelow : (x - box.low parent) / box.extent inner < box.extent outer :=
        Int.ediv_lt_of_lt_mul hpos (by omega)
      have hremainder := Int.emod_nonneg (x - box.low parent) hpos.ne'
      have hbelow' := Int.emod_lt_of_pos (x - box.low parent) hpos
      have hsplit := Int.ediv_mul_add_emod (x - box.low parent) (box.extent inner)
      simp only [takeApart, IterMap.getDefault, hx, Option.getD_some]
      have houter : box.Contains outer ((x - box.low parent) / box.extent inner) :=
        ⟨by omega, by omega⟩
      have hinner : box.Contains inner ((x - box.low parent) % box.extent inner) :=
        ⟨by omega, by omega⟩
      refine .insert_insert (contains_insert (contains_insert hinside houter) hinner) rfl ?_
      simp [IterMap.get?_insert, Follows, hnodup, hapart, hx, hsplit]
  | fuse outer inner fused =>
      simp only [Relation.inputs, Relation.outputs, List.mem_cons, List.not_mem_nil, or_false,
        forall_eq, forall_eq_or_imp] at *
      obtain ⟨⟨x, hx, hlow, hhigh⟩, y, hy, hlow', hhigh'⟩ := hknown
      obtain ⟨hlow'', hextent⟩ := hcovers
      have hpos : 0 < box.extent inner := by omega
      have hproduct : 0 ≤ (x - box.low outer) * box.extent inner := mul_nonneg (by omega) hpos.le
      have hlast : (x - box.low outer) * box.extent inner ≤
          (box.extent outer - 1) * box.extent inner :=
        mul_le_mul_of_nonneg_right (by omega) hpos.le
      rw [sub_mul (box.extent outer), one_mul] at hlast
      simp only [takeApart, IterMap.getDefault, hx, hy, Option.getD_some]
      have hfused : box.Contains fused
          ((x - box.low outer) * box.extent inner + (y - box.low inner)) :=
        ⟨by omega, by omega⟩
      refine .insert (contains_insert hinside hfused) rfl ?_
      simp only [IterMap.get?_insert, Follows, hapart, if_true, if_false, hx, hy,
        Option.getD_some]
      rw [Int.add_comm, Int.add_mul_ediv_right _ _ hpos.ne', Int.add_mul_emod_self_right,
        Int.ediv_eq_zero_of_lt (by omega) (by omega), Int.emod_eq_of_lt (by omega) (by omega)]
      exact ⟨by omega, rfl⟩
  | rebase parent rebased =>
      simp only [Relation.inputs, Relation.outputs, List.mem_singleton, forall_eq] at *
      obtain ⟨x, hx, hlow, hhigh⟩ := hknown
      obtain ⟨hlow', hextent⟩ := hcovers
      simp only [takeApart, IterMap.getDefault, hx, Option.getD_some]
      have hrebased : box.Contains rebased (x - box.low parent) := ⟨by omega, by omega⟩
      refine .insert (contains_insert hinside hrebased) rfl ?_
      simp [IterMap.get?_insert, Follows, hapart, hx]
  | singleton iter =>
      simp only [Relation.outputs, List.mem_singleton, forall_eq] at *
      obtain ⟨hlow, hextent⟩ := hcovers
      have hiter : box.Contains iter 0 := ⟨by omega, by omega⟩
      exact .insert (contains_insert hinside hiter) rfl trivial

/-- Roots inside their ranges come from a point that stays inside. -/
theorem Fits.exists_point (hfits : box.Fits stage) (h : stage.Linked) {target : IterId → Int}
    (htarget : ∀ id ∈ stage.roots, box.Contains id (target id)) :
    ∃ value : IterId → Int, (∀ id ∈ stage.roots, value id = target id) ∧
      (∀ relation ∈ stage.relations, box.Follows value relation) ∧
      ∀ id ∈ stage.defined, box.Contains id (value id) := by
  let seed := IterMap.ofList (stage.roots.map fun id => (id, target id))
  have hseed : ∀ id, seed.get? id = if id ∈ stage.roots then some (target id) else none :=
    IterMap.get?_ofList_map stage.roots target
  have hlocal : Stage.IsLocal fun (values : IterId → Option Int) relation =>
      box.Follows (fun id => (values id).getD 0) relation := by
    intro relation left right hsame hfollows
    cases relation <;>
      simp_all [Relation.inputs, Relation.outputs, Follows]
  let step : IterMap Int → Relation → Except (Halt (IterMap Int)) (IterMap Int) :=
    fun known relation => .ok (box.takeApart known relation)
  have hstart : ∀ id ∈ stage.defined, ∀ x ∈ seed.get? id, box.Contains id x := by
    intro id _ x hx
    rw [hseed] at hx
    split at hx
    · exact Option.some.inj hx ▸ htarget id ‹_›
    · cases hx
  have hothers : ∀ id ∈ stage.relations.flatMap Relation.outputs, seed.get? id = none := by
    intro id hid
    obtain ⟨relation, hrelation, hmade⟩ := List.mem_flatMap.mp hid
    rw [hseed, if_neg (h.not_mem_roots_of_mem_outputs hrelation hmade)]
  have hready : ∀ id ∈ stage.roots, (seed.get? id).isSome := by
    intro id hid
    rw [hseed, if_pos hid]
    rfl
  obtain ⟨known, -, hwrites⟩ : ∃ final, stage.flowDown step seed = .ok final ∧ _ :=
    h.flowDown_ok hlocal (fun known relation hrelation hinside hready _ =>
      ⟨_, rfl, hfits.writes_takeApart h hrelation hinside hready⟩) hstart hready hothers
  have hroots : ∀ id ∈ stage.roots, known.get? id = some (target id) := by
    intro id hid
    rw [hwrites.frame id, hseed, if_pos hid]
    intro hmade
    obtain ⟨relation, hrelation, hmade⟩ := List.mem_flatMap.mp hmade
    exact h.not_mem_roots_of_mem_outputs hrelation hmade hid
  refine ⟨known.getDefault, fun id hid => by simp [IterMap.getDefault, hroots id hid],
    hwrites.conditions, fun id hid => ?_⟩
  have hknown : (known.get? id).isSome := by
    rcases List.mem_append.mp hid with hroot | hmade
    · rw [hroots id hroot]
      rfl
    · exact hwrites.known id hmade
  obtain ⟨x, hx⟩ := Option.isSome_iff_exists.mp hknown
  rw [IterMap.getDefault, hx]
  exact hwrites.invariant id hid x hx

/-- Roots inside their ranges come from leaves inside theirs: whatever these leaves
determine stays inside and has these roots. -/
theorem Fits.exists_leaves (hfits : box.Fits stage) (h : stage.Linked) {target : IterId → Int}
    (htarget : ∀ id ∈ stage.roots, box.Contains id (target id)) :
    ∃ leaf : IterId → Int, (∀ id ∈ stage.leaves, box.Contains id (leaf id)) ∧
      ∀ value : IterId → Int, (∀ relation ∈ stage.relations, box.Follows value relation) →
        (∀ id ∈ stage.leaves, value id = leaf id) →
        (∀ id ∈ stage.defined, box.Contains id (value id)) ∧
          ∀ id ∈ stage.roots, value id = target id := by
  obtain ⟨leaf, hroots, hfollows, hcontains⟩ := hfits.exists_point h htarget
  refine ⟨leaf, fun id hid => hcontains id (h.mem_defined_of_mem_leaves hid),
    fun value hvalue hleaves => ?_⟩
  have hsame := eq_of_leaves h hvalue hfollows hleaves
  refine ⟨fun id hid => ?_, fun id hid => ?_⟩
  · rw [hsame id hid]
    exact hcontains id hid
  · rw [hsame id (Stage.mem_defined_of_mem_roots hid), hroots id hid]

end Box

end LoopNest
