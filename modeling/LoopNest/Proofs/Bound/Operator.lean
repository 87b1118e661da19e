/-
# Bounds enclose values

A bound admits a value that lies between its ends, provided that the lower end is
not positive infinity and the upper end not negative infinity. The provision costs
nothing, since every finite value implies it, and without it an end at the wrong
infinity would dominate a sum.

Each operator on bounds admits the value of the operator on admitted operands. The
result has to be finite: a value at an infinity is where saturation loses track.
-/

import LoopNest.Facts.Bounds
import LoopNest.Proofs.Bound.Endpoint
import LoopNest.Proofs.Expr.Formed

namespace LoopNest

namespace Word

/-- A defined quotient is the floored quotient. -/
theorem eq_fdiv_of_floorDiv? {dividend divisor result : Int}
    (h : floorDiv? dividend divisor = some result) :
    divisor ≠ 0 ∧ result = dividend.fdiv divisor := by
  simp only [floorDiv?, Option.ite_none_left_eq_some, check_eq_some_iff] at h
  exact ⟨h.1, h.2.2.symm⟩

/-- A defined remainder is the floored remainder. -/
theorem eq_fmod_of_floorMod? {dividend divisor result : Int}
    (h : floorMod? dividend divisor = some result) :
    divisor ≠ 0 ∧ result = dividend.fmod divisor := by
  simp only [floorMod?, Option.bind_eq_bind, Option.bind_eq_some_iff, mul?,
    check_eq_some_iff] at h
  obtain ⟨quotient, hquotient, product, ⟨-, rfl⟩, -, rfl⟩ := h
  obtain ⟨hzero, rfl⟩ := eq_fdiv_of_floorDiv? hquotient
  refine ⟨hzero, ?_⟩
  rw [mul_comm, Int.fmod_def]

end Word

namespace Bound

open Endpoint (IsFinite posInf negInf)

/-- The bound encloses a value, and neither end is the wrong infinity. -/
structure Admits (bound : Bound) (value : Int) : Prop where
  lower : bound.min ≤ value
  upper : value ≤ bound.max
  min_lt : bound.min < posInf
  lt_max : -posInf < bound.max
  least_le : negInf ≤ bound.min
  le_greatest : bound.max ≤ posInf

variable {left right bound : Bound} {x y value : Int} {dtype : DType}

theorem admits_point (h : IsFinite value) : (point value).Admits value := by
  obtain ⟨hlow, hhigh⟩ := h
  have hleast : negInf < -posInf := by decide
  exact ⟨le_rfl, le_rfl, hhigh, hlow, (hleast.trans hlow).le, hhigh.le⟩

/-- A type admits its values. -/
theorem admits_ofDType (h : dtype.contains value = true) : (ofDType dtype).Admits value := by
  rw [DType.contains_iff] at h
  refine ⟨h.1, h.2, ?_, ?_, ?_, ?_⟩ <;> cases dtype <;> decide

/-- Two bounds that admit a value leave it in their intersection. -/
theorem Admits.intersect (hleft : left.Admits value) (hright : right.Admits value) :
    (left.intersect right).Admits value where
  lower := max_le hleft.lower hright.lower
  upper := le_min hleft.upper hright.upper
  min_lt := max_lt hleft.min_lt hright.min_lt
  lt_max := lt_min hleft.lt_max hright.lt_max
  least_le := hleft.least_le.trans (le_max_left _ _)
  le_greatest := (min_le_left _ _).trans hleft.le_greatest

/-- For a finite value of a type it is enough to lie between the ends. -/
theorem admits_intersect_ofDType (hlower : bound.min ≤ value) (hupper : value ≤ bound.max)
    (hfinite : IsFinite value) (hcontains : dtype.contains value = true) :
    (bound.intersect (ofDType dtype)).Admits value where
  lower := max_le hlower (admits_ofDType hcontains).lower
  upper := le_min hupper (admits_ofDType hcontains).upper
  min_lt := max_lt (hlower.trans_lt hfinite.2) (admits_ofDType hcontains).min_lt
  lt_max := lt_min (hfinite.1.trans_le hupper) (admits_ofDType hcontains).lt_max
  least_le := (admits_ofDType hcontains).least_le.trans (le_max_right _ _)
  le_greatest := (min_le_right _ _).trans (admits_ofDType hcontains).le_greatest

/-- Truth values are finite. -/
theorem isFinite_truth (holds : Bool) : IsFinite (BinaryOp.truth holds) := by
  cases holds <;> decide

/-- What is known to hold always or never encloses the truth value. -/
theorem ofTruth_encloses {always never holds : Bool} (halways : always = true → holds = true)
    (hnever : never = true → holds = false) :
    (ofTruth always never).min ≤ BinaryOp.truth holds ∧
      BinaryOp.truth holds ≤ (ofTruth always never).max := by
  cases always with
  | true => simp [ofTruth, point, halways rfl, BinaryOp.truth]
  | false =>
      cases never with
      | true => simp [ofTruth, point, hnever rfl, BinaryOp.truth]
      | false => cases holds <;> decide

/-- A bound that is a single point leaves no choice. -/
theorem Admits.eq_of_isPoint (h : bound.Admits value) (hpoint : bound.isPoint = true) :
    value = bound.min := by
  rw [isPoint, decide_eq_true_iff] at hpoint
  exact le_antisymm (h.upper.trans hpoint.ge) h.lower

theorem Admits.eq_of_samePoint (hx : left.Admits x) (hy : right.Admits y)
    (h : left.samePoint right = true) : x = y := by
  simp only [samePoint, Bool.and_eq_true, decide_eq_true_eq] at h
  rw [hx.eq_of_isPoint h.1.1, hy.eq_of_isPoint h.1.2, h.2]

theorem Admits.ne_of_disjoint (hx : left.Admits x) (hy : right.Admits y)
    (h : left.disjoint right = true) : x ≠ y := by
  simp only [disjoint, Bool.or_eq_true, decide_eq_true_eq] at h
  rintro rfl
  rcases h with h | h
  · exact absurd (hx.upper.trans_lt h) hy.lower.not_gt
  · exact absurd (hy.upper.trans_lt h) hx.lower.not_gt

theorem negate_encloses (h : bound.Admits x) (hfinite : IsFinite (-x)) :
    bound.negate.min ≤ -x ∧ -x ≤ bound.negate.max :=
  ⟨Endpoint.neg_le h.upper hfinite, Endpoint.le_neg h.lower hfinite⟩

theorem complement_encloses (h : bound.Admits x) :
    bound.complement.min ≤ BinaryOp.truth (decide (x = 0)) ∧
      BinaryOp.truth (decide (x = 0)) ≤ bound.complement.max := by
  obtain ⟨hlower, hupper⟩ := h
  apply ofTruth_encloses
  · simp only [Bool.and_eq_true, decide_eq_true_eq]
    omega
  · simp only [Bool.or_eq_true, decide_eq_true_eq, decide_eq_false_iff_not]
    omega

/-- The box of a product is enclosed by its corners, and saturation keeps the order. -/
theorem corners_mul_encloses (hx : left.Admits x) (hy : right.Admits y)
    (hfinite : IsFinite (x * y)) :
    (corners left right Endpoint.mul).min ≤ x * y ∧
      x * y ≤ (corners left right Endpoint.mul).max := by
  have hmono : Monotone Endpoint.clamp := fun _ _ => Endpoint.clamp_le_clamp
  have hlow := fun a => mul_comm a y ▸ mul_comm a right.min ▸ mul_comm a right.max ▸
    Endpoint.min_mul_le hy.lower hy.upper a
  have hhigh := fun a => mul_comm a y ▸ mul_comm a right.min ▸ mul_comm a right.max ▸
    Endpoint.le_max_mul hy.lower hy.upper a
  rw [← Endpoint.clamp_of_isFinite hfinite]
  simp only [corners, Endpoint.mul_eq_clamp, ← hmono.map_min, ← hmono.map_max]
  constructor
  · apply hmono
    exact (min_le_min (hlow left.min) (hlow left.max)).trans
      (Endpoint.min_mul_le hx.lower hx.upper y)
  · apply hmono
    exact (Endpoint.le_max_mul hx.lower hx.upper y).trans
      (max_le_max (hhigh left.min) (hhigh left.max))

/-- The quotient by a divisor that stays positive. A nonnegative dividend comes
lowest at the large divisor and highest at the small one, a negative dividend the
other way round. -/
theorem corners_div_encloses_of_pos (hx : left.Admits x) (hy : right.Admits y)
    (hpos : 0 < right.min) (hfinite : IsFinite (x.fdiv y)) :
    (corners left right Endpoint.div).min ≤ x.fdiv y ∧
      x.fdiv y ≤ (corners left right Endpoint.div).max := by
  obtain ⟨hlow, hhigh, hlow', hhigh', hleast, hgreatest⟩ := hx
  obtain ⟨hbelow, habove, hbelow', -, -, -⟩ := hy
  have hy : 0 < y := hpos.trans_le hbelow
  have hmax : 0 < right.max := hy.trans_le habove
  have hmin : Endpoint.isInfinite right.min = false := by
    rw [← Bool.not_eq_true, Endpoint.isInfinite_iff, Endpoint.negInf_eq]
    omega
  have hleft : Endpoint.isInfinite left.min = true → left.min < 0 := fun h =>
    (Endpoint.isInfinite_iff.mp h).elim (fun h => h ▸ by decide) fun h => absurd h hlow'.ne
  have hright : Endpoint.isInfinite left.max = true → ¬left.max < 0 := fun h =>
    (Endpoint.isInfinite_iff.mp h).elim
      (fun h => absurd (h ▸ hhigh') (by decide)) fun h => h ▸ by decide
  rw [Int.fdiv_eq_ediv_of_nonneg x hy.le] at hfinite ⊢
  simp only [corners, min_le_iff, le_max_iff]
  rcases le_or_gt 0 x with hsign | hsign
  · constructor
    · refine .inl (.inr (Endpoint.div_le hmax.ne' hleast (hlow.trans (hhigh.trans hgreatest))
        hfinite (fun _ => Int.ediv_nonneg hsign hy.le) (fun h => by have := hleft h; omega) ?_))
      rw [Int.fdiv_eq_ediv_of_nonneg _ hmax.le]
      exact (Int.ediv_le_ediv hmax hlow).trans
        (Endpoint.ediv_le_ediv_of_divisor_le hsign hy habove)
    · refine .inr (.inl (Endpoint.le_div hpos.ne' (hleast.trans (hlow.trans hhigh)) hgreatest
        hfinite (by simp [hmin]) (fun h => by have := hright h; omega) ?_))
      rw [Int.fdiv_eq_ediv_of_nonneg _ hpos.le]
      exact (Endpoint.ediv_le_ediv_of_divisor_le hsign hpos hbelow).trans
        (Int.ediv_le_ediv hpos hhigh)
  · constructor
    · refine .inl (.inl (Endpoint.div_le hpos.ne' hleast (hlow.trans (hhigh.trans hgreatest))
        hfinite (by simp [hmin]) (fun h => by have := hleft h; omega) ?_))
      rw [Int.fdiv_eq_ediv_of_nonneg _ hpos.le]
      exact (Int.ediv_le_ediv hpos hlow).trans
        (Endpoint.ediv_le_ediv_of_divisor_le_of_neg hsign hpos hbelow)
    · refine .inr (.inr (Endpoint.le_div hmax.ne' (hleast.trans (hlow.trans hhigh)) hgreatest
        hfinite (fun _ => (Int.ediv_neg_of_neg_of_pos hsign hy).le)
        (fun h => by have := hright h; omega) ?_))
      rw [Int.fdiv_eq_ediv_of_nonneg _ hmax.le]
      exact (Endpoint.ediv_le_ediv_of_divisor_le_of_neg hsign hy habove).trans
        (Int.ediv_le_ediv hmax hhigh)

/-- The quotient by a divisor that stays negative. It is the quotient of the opposite
numbers, so the corners change sides. -/
theorem corners_div_encloses_of_neg (hx : left.Admits x) (hy : right.Admits y)
    (hneg : right.max < 0) (hfinite : IsFinite (x.fdiv y)) :
    (corners left right Endpoint.div).min ≤ x.fdiv y ∧
      x.fdiv y ≤ (corners left right Endpoint.div).max := by
  obtain ⟨hlow, hhigh, hlow', hhigh', hleast, hgreatest⟩ := hx
  obtain ⟨hbelow, habove, -, hmax', -, -⟩ := hy
  have hy : y < 0 := habove.trans_lt hneg
  have hmin : right.min < 0 := hbelow.trans_lt hy
  have hmax : Endpoint.isInfinite right.max = false := by
    rw [← Bool.not_eq_true, Endpoint.isInfinite_iff]
    rw [Endpoint.negInf_eq, Endpoint.posInf_eq] at *
    omega
  have hleft : Endpoint.isInfinite left.min = true → left.min < 0 := fun h =>
    (Endpoint.isInfinite_iff.mp h).elim (fun h => h ▸ by decide) fun h => absurd h hlow'.ne
  have hright : Endpoint.isInfinite left.max = true → ¬left.max < 0 := fun h =>
    (Endpoint.isInfinite_iff.mp h).elim
      (fun h => absurd (h ▸ hhigh') (by decide)) fun h => h ▸ by decide
  have hopposite : ∀ a {b : Int}, b < 0 → a.fdiv b = -a / -b := fun a b hb => by
    rw [← Int.neg_fdiv_neg, Int.fdiv_eq_ediv_of_nonneg _ (by omega)]
  rw [hopposite x hy] at hfinite ⊢
  simp only [corners, min_le_iff, le_max_iff]
  rcases le_or_gt 0 (-x) with hsign | hsign
  · constructor
    · refine .inr (.inl (Endpoint.div_le hmin.ne (hleast.trans (hlow.trans hhigh)) hgreatest
        hfinite (fun _ => Int.ediv_nonneg hsign (by omega))
        (fun h => by have := hright h; omega) ?_))
      rw [hopposite _ hmin]
      exact (Int.ediv_le_ediv (by omega) (neg_le_neg hhigh)).trans
        (Endpoint.ediv_le_ediv_of_divisor_le hsign (by omega) (neg_le_neg hbelow))
    · refine .inl (.inr (Endpoint.le_div hneg.ne hleast (hlow.trans (hhigh.trans hgreatest))
        hfinite (by simp [hmax]) (fun h => by have := hleft h; omega) ?_))
      rw [hopposite _ hneg]
      exact (Endpoint.ediv_le_ediv_of_divisor_le hsign (by omega) (neg_le_neg habove)).trans
        (Int.ediv_le_ediv (by omega) (neg_le_neg hlow))
  · constructor
    · refine .inr (.inr (Endpoint.div_le hneg.ne (hleast.trans (hlow.trans hhigh)) hgreatest
        hfinite (by simp [hmax]) (fun h => by have := hright h; omega) ?_))
      rw [hopposite _ hneg]
      exact (Int.ediv_le_ediv (by omega) (neg_le_neg hhigh)).trans
        (Endpoint.ediv_le_ediv_of_divisor_le_of_neg hsign (by omega) (neg_le_neg habove))
    · refine .inl (.inl (Endpoint.le_div hmin.ne hleast (hlow.trans (hhigh.trans hgreatest))
        hfinite (fun _ => (Int.ediv_neg_of_neg_of_pos hsign (by omega)).le)
        (fun h => by have := hleft h; omega) ?_))
      rw [hopposite _ hmin]
      exact (Endpoint.ediv_le_ediv_of_divisor_le_of_neg hsign (by omega)
        (neg_le_neg hbelow)).trans (Int.ediv_le_ediv (by omega) (neg_le_neg hlow))

/-- The remainder by a positive divisor lies below the divisor, and a nonnegative
dividend is not exceeded either. -/
theorem remainder_encloses (hx : left.Admits x) (hy : right.Admits y) (hpos : 0 < right.min) :
    (remainder left right).min ≤ x.fmod y ∧ x.fmod y ≤ (remainder left right).max := by
  have hpos' : 0 < y := hpos.trans_le hy.lower
  have hnonneg := Int.fmod_nonneg_of_pos x hpos'
  have hlt := Int.fmod_lt_of_pos x hpos'
  have hword := hy.upper.trans hy.le_greatest
  have hgreatest : y + -1 ≤ Endpoint.add right.max (-1) :=
    Endpoint.le_add hy.upper le_rfl hy.lt_max (by decide)
      ⟨by rw [Endpoint.posInf_eq]; omega, by omega⟩
  have hdividend : 0 ≤ left.min → x.fmod y ≤ left.max := fun hmin => by
    have hquotient := Int.ediv_nonneg (hmin.trans hx.lower) hpos'.le
    rw [Int.fmod_eq_emod_of_nonneg x hpos'.le, Int.emod_def]
    exact (sub_le_self x (mul_nonneg hpos'.le hquotient)).trans hx.upper
  simp only [remainder, Bool.and_eq_true, decide_eq_true_eq]
  split
  · rename_i hsmall
    have hself : x.fmod y = x :=
      Int.fmod_eq_of_lt (hsmall.1.trans hx.lower)
        (hx.upper.trans_lt (hsmall.2.trans_le hy.lower))
    rw [hself]
    exact ⟨hx.lower, hx.upper⟩
  · split
    · exact ⟨hnonneg, le_min (hdividend ‹_›) (by omega)⟩
    · exact ⟨hnonneg, (by omega : x.fmod y ≤ y + -1).trans hgreatest⟩

/-- Each operator on bounds encloses what the operator computes. The operands of a
logical operator are truth values, which are not negative. -/
theorem ofOperator_encloses {op : BinaryOp} (hx : left.Admits x) (hy : right.Admits y)
    (hlogical : op.isLogical = true → 0 ≤ x ∧ 0 ≤ y)
    (hresult : op.compute? x y = some value) (hfinite : IsFinite value) :
    (ofOperator op left right).min ≤ value ∧ value ≤ (ofOperator op left right).max := by
  have heverything : everything.min ≤ value ∧ value ≤ everything.max :=
    ⟨((by decide : negInf < -posInf).trans hfinite.1).le, hfinite.2.le⟩
  cases op <;> simp only [BinaryOp.compute?, Option.some.injEq] at hresult
  case floorDiv =>
    obtain ⟨-, rfl⟩ := Word.eq_fdiv_of_floorDiv? hresult
    simp only [ofOperator, Bool.or_eq_true, decide_eq_true_eq]
    split
    · rename_i hsign
      rcases hsign with hpos | hneg
      · exact corners_div_encloses_of_pos hx hy hpos hfinite
      · exact corners_div_encloses_of_neg hx hy hneg hfinite
    · exact heverything
  case floorMod =>
    obtain ⟨-, rfl⟩ := Word.eq_fmod_of_floorMod? hresult
    simp only [ofOperator]
    split
    · exact remainder_encloses hx hy ‹_›
    · exact heverything
  all_goals subst hresult
  case add =>
    exact ⟨Endpoint.add_le hx.lower hy.lower hx.min_lt hy.min_lt hfinite,
      Endpoint.le_add hx.upper hy.upper hx.lt_max hy.lt_max hfinite⟩
  case sub =>
    exact ⟨Endpoint.sub_le hx.lower hy.upper hx.min_lt hy.lt_max hfinite,
      Endpoint.le_sub hx.upper hy.lower hx.lt_max hy.min_lt hfinite⟩
  case mul => exact corners_mul_encloses hx hy hfinite
  case min => exact ⟨min_le_min hx.lower hy.lower, min_le_min hx.upper hy.upper⟩
  case max => exact ⟨max_le_max hx.lower hy.lower, max_le_max hx.upper hy.upper⟩
  all_goals apply ofTruth_encloses
  case lt.halways =>
    simp only [decide_eq_true_eq]
    exact fun h => hx.upper.trans_lt (h.trans_le hy.lower)
  case lt.hnever =>
    simp only [decide_eq_true_eq, decide_eq_false_iff_not, not_lt]
    exact fun h => hy.upper.trans (h.trans hx.lower)
  case le.halways =>
    simp only [decide_eq_true_eq]
    exact fun h => hx.upper.trans (h.trans hy.lower)
  case le.hnever =>
    simp only [decide_eq_true_eq, decide_eq_false_iff_not, not_le]
    exact fun h => hy.upper.trans_lt (h.trans_le hx.lower)
  case eq.halways => exact fun h => decide_eq_true (hx.eq_of_samePoint hy h)
  case eq.hnever => exact fun h => decide_eq_false (hx.ne_of_disjoint hy h)
  case ne.halways => exact fun h => decide_eq_true (hx.ne_of_disjoint hy h)
  case ne.hnever => exact fun h => decide_eq_false (not_not_intro (hx.eq_of_samePoint hy h))
  all_goals
    obtain ⟨hnonneg, hnonneg'⟩ := hlogical rfl
    have hbounds := And.intro hx.lower hx.upper
    have hbounds' := And.intro hy.lower hy.upper
    simp only [Bool.and_eq_true, Bool.or_eq_true, decide_eq_true_eq, Bool.and_eq_false_iff,
      Bool.or_eq_false_iff, decide_eq_false_iff_not, ne_eq]
    omega

/-- An operand that decides a logical operator leaves the result within its bound
whatever is known about the other operand. -/
theorem ofOperator_encloses_of_decidedBy? {op : BinaryOp} (hx : left.Admits x) (right : Bound)
    (hnonneg : 0 ≤ x) (h : op.decidedBy? x = some value) :
    (ofOperator op left right).min ≤ value ∧ value ≤ (ofOperator op left right).max := by
  have hlower := hx.lower
  have hupper := hx.upper
  cases op <;> simp only [BinaryOp.decidedBy?, Option.ite_none_right_eq_some,
    Option.some.injEq, reduceCtorEq] at h
  case and =>
    rw [show value = BinaryOp.truth false from h.2.symm]
    apply ofTruth_encloses
    · simp only [Bool.and_eq_true, decide_eq_true_eq]
      omega
    · exact fun _ => rfl
  case or =>
    rw [show value = BinaryOp.truth true from h.2.symm]
    apply ofTruth_encloses
    · exact fun _ => rfl
    · simp only [Bool.and_eq_true, decide_eq_true_eq]
      omega

end Bound

end LoopNest
