/-
# Value sets cover values

Over literal sets the values of an arithmetic expression form a literal set again, and
every value that the expression can take lies in it. The ends are computed like any
other literals, so nothing may wrap on the way: neither the value itself nor any of the
combinations of ends that the analysis tries.
-/

import LoopNest.Facts.Values
import LoopNest.Proofs.Expr.Exact
import LoopNest.Proofs.Bound.Operator
import LoopNest.Proofs.Facts.Literal

namespace LoopNest

/-- Two numbers can be computed within a type, unless this divides by zero. -/
def BinaryOp.StaysWithin (dtype : DType) (op : BinaryOp) (left right : Int) : Prop :=
  match op.compute? left right with
  | some result => dtype.contains result = true
  | none => right = 0

instance (dtype : DType) (op : BinaryOp) (left right : Int) :
    Decidable (op.StaysWithin dtype left right) :=
  match h : op.compute? left right with
  | some result => decidable_of_iff (dtype.contains result = true) (by rw [BinaryOp.StaysWithin, h])
  | none => decidable_of_iff (right = 0) (by rw [BinaryOp.StaysWithin, h])

namespace ValueSet

/-- A set with literal ends, as far as it has any, around a value. -/
structure Covers (set : ValueSet) (dtype : DType) (x : Int) : Prop where
  nonempty : set.isEmpty = false
  low : ∀ e ∈ set.min?, ∃ l, e = .const dtype l ∧ dtype.contains l = true ∧ l ≤ x
  high : ∀ e ∈ set.max?, ∃ h, e = .const dtype h ∧ dtype.contains h = true ∧ x ≤ h

/-- The ends that a set has. -/
def ends (set : ValueSet) : List Expr :=
  set.min?.toList ++ set.max?.toList

variable {set left right : ValueSet} {dtype : DType} {x y : Int} {e : Expr}

theorem mem_ends_of_min? (h : set.min? = some e) : e ∈ set.ends := by
  simp [ends, h]

theorem mem_ends_of_max? (h : set.max? = some e) : e ∈ set.ends := by
  simp [ends, h]

theorem mem_ends_of_point? (h : set.point? = some e) : e ∈ set.ends := by
  unfold point? at h
  split at h
  · obtain ⟨-, h⟩ := Option.ite_none_right_eq_some.mp h
    exact mem_ends_of_min? h
  · cases h

theorem covers_everything (dtype : DType) (x : Int) : everything.Covers dtype x :=
  ⟨rfl, nofun, nofun⟩

theorem covers_point (h : dtype.contains x = true) : (point (.const dtype x)).Covers dtype x :=
  ⟨rfl, fun _ hend => ⟨x, (Option.some.inj hend).symm, h, le_rfl⟩,
    fun _ hend => ⟨x, (Option.some.inj hend).symm, h, le_rfl⟩⟩

theorem covers_between {low high : Int} (hlow : dtype.contains low = true)
    (hhigh : dtype.contains high = true) (hx : low ≤ x) (hx' : x ≤ high) :
    (between (.const dtype low) (.const dtype high)).Covers dtype x :=
  ⟨rfl, fun _ hend => ⟨low, (Option.some.inj hend).symm, hlow, hx⟩,
    fun _ hend => ⟨high, (Option.some.inj hend).symm, hhigh, hx'⟩⟩

/-- The point of a set is the only value in it. -/
theorem Covers.eq_of_point? (h : set.Covers dtype x) (hpoint : set.point? = some e) :
    e = .const dtype x ∧ dtype.contains x = true := by
  unfold point? at hpoint
  split at hpoint
  · rename_i low high
    obtain ⟨rfl, -⟩ := Option.ite_none_right_eq_some.mp hpoint
    obtain ⟨l, hlow, hcontains, hle⟩ := h.low _ rfl
    obtain ⟨u, hhigh, -, hle'⟩ := h.high _ rfl
    obtain rfl : l = u := by simpa using hlow.symm.trans hhigh
    obtain rfl : l = x := by omega
    rw [if_pos rfl, Option.some.injEq] at hpoint
    exact ⟨hpoint.symm.trans hlow, hcontains⟩
  · cases hpoint

theorem Covers.mapEnds (h : set.Covers dtype x) {f : Expr → Expr}
    (hkeep : ∀ value, f (.const dtype value) = .const dtype value) :
    (set.mapEnds f).Covers dtype x := by
  obtain ⟨hnonempty, hlow, hhigh⟩ := h
  cases set with
  | empty => cases hnonempty
  | interval low high =>
      refine ⟨rfl, fun e he => ?_, fun e he => ?_⟩
      · obtain ⟨e', he', rfl⟩ := Option.map_eq_some_iff.mp he
        obtain ⟨l, rfl, hl⟩ := hlow e' he'
        exact ⟨l, hkeep l, hl⟩
      · obtain ⟨e', he', rfl⟩ := Option.map_eq_some_iff.mp he
        obtain ⟨u, rfl, hu⟩ := hhigh e' he'
        exact ⟨u, hkeep u, hu⟩

/-- A function that keeps the order moves the ends along, and one that reverses it exchanges
them. -/
theorem Covers.moveEnds (h : set.Covers dtype x) {f : Expr → Expr} {g : Int → Int}
    (hf : ∀ l, .const dtype l ∈ set.ends →
      f (.const dtype l) = .const dtype (g l) ∧ dtype.contains (g l) = true)
    {increasing : Bool} (hmono : increasing = true → ∀ {a b}, a ≤ b → g a ≤ g b)
    (hanti : increasing = false → ∀ {a b}, a ≤ b → g b ≤ g a) :
    (set.moveEnds increasing f).Covers dtype (g x) := by
  have hlow : ∀ e ∈ set.min?.map f, ∃ l, e = .const dtype (g l) ∧
      dtype.contains (g l) = true ∧ l ≤ x := by
    intro e he
    obtain ⟨e', he', rfl⟩ := Option.map_eq_some_iff.mp he
    obtain ⟨l, rfl, -, hl⟩ := h.low e' he'
    exact ⟨l, (hf l (mem_ends_of_min? he')).1, (hf l (mem_ends_of_min? he')).2, hl⟩
  have hhigh : ∀ e ∈ set.max?.map f, ∃ u, e = .const dtype (g u) ∧
      dtype.contains (g u) = true ∧ x ≤ u := by
    intro e he
    obtain ⟨e', he', rfl⟩ := Option.map_eq_some_iff.mp he
    obtain ⟨u, rfl, -, hu⟩ := h.high e' he'
    exact ⟨u, (hf u (mem_ends_of_max? he')).1, (hf u (mem_ends_of_max? he')).2, hu⟩
  cases increasing with
  | true =>
      refine ⟨rfl, fun e he => ?_, fun e he => ?_⟩
      · obtain ⟨l, heq, hcontains, hl⟩ := hlow e he
        exact ⟨g l, heq, hcontains, hmono rfl hl⟩
      · obtain ⟨u, heq, hcontains, hu⟩ := hhigh e he
        exact ⟨g u, heq, hcontains, hmono rfl hu⟩
  | false =>
      refine ⟨rfl, fun e he => ?_, fun e he => ?_⟩
      · obtain ⟨u, heq, hcontains, hu⟩ := hhigh e he
        exact ⟨g u, heq, hcontains, hanti rfl hu⟩
      · obtain ⟨l, heq, hcontains, hl⟩ := hlow e he
        exact ⟨g l, heq, hcontains, hanti rfl hl⟩

/-- All ends of two sets can be combined within a type. -/
def EndsStayWithin (dtype : DType) (op : BinaryOp) (left right : ValueSet) : Prop :=
  ∀ first ∈ left.ends, ∀ second ∈ right.ends, ∀ l ∈ first.value?, ∀ r ∈ second.value?,
    op.StaysWithin dtype l r

instance (dtype : DType) (op : BinaryOp) (left right : ValueSet) :
    Decidable (EndsStayWithin dtype op left right) :=
  inferInstanceAs (Decidable (∀ first ∈ left.ends, ∀ second ∈ right.ends,
    ∀ l ∈ first.value?, ∀ r ∈ second.value?, _))

variable {op : BinaryOp} {holds holdsLeft holdsRight : Int → Prop} {leftEnd rightEnd : Option Expr}

theorem Covers.low_end (h : set.Covers dtype x) :
    ∀ e ∈ set.min?, ∃ l, e = .const dtype l ∧ e ∈ set.ends ∧ dtype.contains l = true ∧ l ≤ x := by
  intro e he
  obtain ⟨l, heq, hl⟩ := h.low e he
  exact ⟨l, heq, mem_ends_of_min? he, hl⟩

theorem Covers.high_end (h : set.Covers dtype x) :
    ∀ e ∈ set.max?, ∃ u, e = .const dtype u ∧ e ∈ set.ends ∧ dtype.contains u = true ∧ x ≤ u := by
  intro e he
  obtain ⟨u, heq, hu⟩ := h.high e he
  exact ⟨u, heq, mem_ends_of_max? he, hu⟩

/-- Ends that stay within the type are computed like literals. -/
theorem EndsStayWithin.combine (h : EndsStayWithin dtype op left right)
    (hop : op.isPredicate = false) {l r result : Int} (hl : .const dtype l ∈ left.ends)
    (hr : .const dtype r ∈ right.ends) (hresult : op.compute? l r = some result) :
    .combine op (.const dtype l) (.const dtype r) = Expr.const dtype result ∧
      dtype.contains result = true := by
  have hcontains := h _ hl _ hr l rfl r rfl
  rw [BinaryOp.StaysWithin, hresult] at hcontains
  exact ⟨Expr.combine_const_of_contains hop hresult hcontains, hcontains⟩

/-- An end that is computed from two ends. -/
theorem EndsStayWithin.bothEnds (h : EndsStayWithin dtype op left right)
    (hop : op.isPredicate = false)
    (hleft : ∀ e ∈ leftEnd, ∃ l, e = .const dtype l ∧ e ∈ left.ends ∧
      dtype.contains l = true ∧ holdsLeft l)
    (hright : ∀ e ∈ rightEnd, ∃ r, e = .const dtype r ∧ e ∈ right.ends ∧
      dtype.contains r = true ∧ holdsRight r)
    (hresult : ∀ l r, holdsLeft l → holdsRight r →
      ∃ result, op.compute? l r = some result ∧ holds result) :
    ∀ e ∈ ValueSet.bothEnds (Expr.combine op) leftEnd rightEnd,
      ∃ v, e = .const dtype v ∧ dtype.contains v = true ∧ holds v := by
  intro e he
  simp only [ValueSet.bothEnds, Option.bind_eq_bind, Option.pure_def, Option.mem_def,
    Option.bind_eq_some_iff, Option.some.injEq] at he
  obtain ⟨first, hfirst, second, hsecond, rfl⟩ := he
  obtain ⟨l, rfl, hl, -, hholds⟩ := hleft first hfirst
  obtain ⟨r, rfl, hr, -, hholds'⟩ := hright second hsecond
  obtain ⟨result, hresult, hholds⟩ := hresult l r hholds hholds'
  obtain ⟨heq, hcontains⟩ := h.combine hop hl hr hresult
  exact ⟨result, heq, hcontains, hholds⟩

/-- An end that is computed from two ends, or is one of them where the other is missing. -/
theorem EndsStayWithin.eitherEnd (h : EndsStayWithin dtype op left right)
    (hop : op.isPredicate = false)
    (hleft : ∀ e ∈ leftEnd, ∃ l, e = .const dtype l ∧ e ∈ left.ends ∧
      dtype.contains l = true ∧ holdsLeft l)
    (hright : ∀ e ∈ rightEnd, ∃ r, e = .const dtype r ∧ e ∈ right.ends ∧
      dtype.contains r = true ∧ holdsRight r)
    (hresult : ∀ l r, holdsLeft l → holdsRight r →
      ∃ result, op.compute? l r = some result ∧ holds result)
    (hholds : ∀ l, holdsLeft l → holds l) (hholds' : ∀ r, holdsRight r → holds r) :
    ∀ e ∈ ValueSet.eitherEnd (Expr.combine op) leftEnd rightEnd,
      ∃ v, e = .const dtype v ∧ dtype.contains v = true ∧ holds v := by
  intro e he
  unfold ValueSet.eitherEnd at he
  split at he
  · exact h.bothEnds hop hleft hright hresult e he
  · obtain ⟨l, rfl, -, hcontains, hl⟩ := hleft e he
    exact ⟨l, rfl, hcontains, hholds l hl⟩
  · obtain ⟨r, rfl, -, hcontains, hr⟩ := hright e he
    exact ⟨r, rfl, hcontains, hholds' r hr⟩

end ValueSet

/-- Every variable with a value has a set that covers it. -/
def Domains.Cover (domains : Domains) (assignment : Assignment) : Prop :=
  ∀ v x, (Expr.var v).eval assignment = .ok x →
    ∃ set, domains v = some set ∧ set.Covers v.dtype x

namespace Facts

variable {facts : Facts} {dtype : DType} {left right set : ValueSet} {x y value : Int}
  {op : BinaryOp} {e : Expr}

open ValueSet (Covers EndsStayWithin)

/-- The sign of a point is the sign of the value. -/
theorem eq_of_signedPoint? (hfree : facts.Consistent) (h : set.Covers dtype y)
    {positive : Bool} (hpoint : facts.signedPoint? set = some (e, positive)) :
    e = .const dtype y ∧ dtype.contains y = true ∧ (positive = true → 0 < y) ∧
      (positive = false → y < 0) ∧ e ∈ set.ends := by
  simp only [signedPoint?, Option.bind_eq_bind, Option.pure_def, Option.bind_eq_some_iff,
    Option.some.injEq, Prod.mk.injEq] at hpoint
  obtain ⟨point, hpoint, sign, hsign, rfl, rfl⟩ := hpoint
  have hend := ValueSet.mem_ends_of_point? hpoint
  obtain ⟨rfl, hcontains⟩ := h.eq_of_point? hpoint
  have hzero : Expr.zero (Expr.const dtype y).dtype = .const dtype 0 := by
    rw [Expr.zero, Expr.literal, DType.truncate_of_contains (DType.contains_zero _)]
    rfl
  rw [isPositive?, hzero, Expr.gt, proves_lt hfree, proves_lt hfree] at hsign
  refine ⟨rfl, hcontains, ?_, ?_, hend⟩ <;> rintro rfl <;> grind

theorem productValues_covers (hfree : facts.Consistent) (hleft : left.Covers dtype x)
    (hright : right.Covers dtype y) (hends : EndsStayWithin dtype .mul left right) :
    (facts.productValues left right).Covers dtype (x * y) := by
  unfold productValues
  split
  · rename_i factor positive hfactor
    obtain ⟨rfl, -, hpos, hneg, hend⟩ := eq_of_signedPoint? hfree hright hfactor
    refine hleft.moveEnds (g := (· * y)) (fun l hl => ?_) ?_ ?_
    · exact hends.combine rfl hl hend rfl
    · exact fun hpositive _ _ hab => mul_le_mul_of_nonneg_right hab (hpos hpositive).le
    · exact fun hnegative _ _ hab => mul_le_mul_of_nonpos_right hab (hneg hnegative).le
  · rename_i factor positive hfactor
    obtain ⟨rfl, -, hpos, hneg, hend⟩ := eq_of_signedPoint? hfree hleft hfactor
    refine hright.moveEnds (g := (x * ·)) (fun r hr => ?_) ?_ ?_
    · exact hends.combine rfl hend hr rfl
    · exact fun hpositive _ _ hab => mul_le_mul_of_nonneg_left hab (hpos hpositive).le
    · exact fun hnegative _ _ hab => mul_le_mul_of_nonpos_left hab (hneg hnegative).le
  · exact ValueSet.covers_everything _ _

theorem fdiv_le_fdiv_of_pos (h : 0 < y) {a b : Int} (hab : a ≤ b) : a.fdiv y ≤ b.fdiv y := by
  simp only [Int.fdiv_eq_ediv_of_nonneg _ h.le]
  exact Int.ediv_le_ediv h hab

theorem fdiv_le_fdiv_of_neg (h : y < 0) {a b : Int} (hab : a ≤ b) : b.fdiv y ≤ a.fdiv y := by
  have hopposite : ∀ a : Int, a.fdiv y = (-a).fdiv (-y) := fun a => (Int.neg_fdiv_neg a y).symm
  simp only [hopposite]
  exact fdiv_le_fdiv_of_pos (by omega) (neg_le_neg hab)

/-- The ends of a quotient by a point of known sign. -/
theorem quotientValues_covers (hfree : facts.Consistent) (hleft : left.Covers dtype x)
    (hright : right.Covers dtype y) (hends : EndsStayWithin dtype .floorDiv left right)
    {divisor : Expr} {positive : Bool}
    (hdivisor : facts.signedPoint? right = some (divisor, positive)) :
    (left.moveEnds positive fun e => e.floorDiv divisor).Covers dtype (x.fdiv y) := by
  obtain ⟨rfl, -, hpos, hneg, hend⟩ := eq_of_signedPoint? hfree hright hdivisor
  refine hleft.moveEnds (g := fun x => x.fdiv y) (fun l hl => ?_)
    (fun hpositive _ _ => fdiv_le_fdiv_of_pos (hpos hpositive))
    (fun hnegative _ _ => fdiv_le_fdiv_of_neg (hneg hnegative))
  have hne : y ≠ 0 := by
    cases positive with
    | true => exact (hpos rfl).ne'
    | false => exact (hneg rfl).ne
  have hwithin := hends _ hl _ hend l rfl y rfl
  cases hresult : BinaryOp.floorDiv.compute? l y with
  | none =>
      rw [BinaryOp.StaysWithin, hresult] at hwithin
      exact absurd hwithin hne
  | some result =>
      obtain ⟨-, rfl⟩ := Word.eq_fdiv_of_floorDiv? hresult
      exact hends.combine rfl hl hend hresult

/-- The remainders by a positive point. -/
theorem remaindersBy_covers (hfree : facts.Consistent) (hleft : left.Covers dtype x)
    (hy : dtype.contains y = true) (hpos : 0 < y) :
    (facts.remaindersBy left (.const dtype y) (.zero dtype)).Covers dtype (x.fmod y) := by
  have hzero : Expr.zero dtype = .const dtype 0 := by
    rw [Expr.zero, Expr.literal, DType.truncate_of_contains (DType.contains_zero _)]
  have hone : dtype.contains (y - 1) = true :=
    DType.contains_of_between (DType.contains_zero _) hy (by omega) (by omega)
  have hlast : (Expr.const dtype y).sub (.one (Expr.const dtype y).dtype) = .const dtype (y - 1) := by
    have hliteral : Expr.one dtype = .const dtype 1 := by
      rw [Expr.one, Expr.literal, DType.truncate_of_contains]
      exact DType.contains_of_between (DType.contains_zero _) hy (by omega) (by omega)
    rw [Expr.dtype, hliteral]
    exact Expr.combine_const_of_contains rfl rfl hone
  have hwhole : (ValueSet.between (.const dtype 0) (.const dtype (y - 1))).Covers dtype
      (x.fmod y) :=
    ValueSet.covers_between (DType.contains_zero _) hone (Int.fmod_nonneg_of_pos x hpos)
      (Int.le_sub_one_of_lt (Int.fmod_lt_of_pos x hpos))
  rw [remaindersBy, hlast, hzero]
  split
  · rename_i low high hlow hhigh
    obtain ⟨l, rfl, -, hl⟩ := hleft.low low hlow
    obtain ⟨u, rfl, -, hu⟩ := hleft.high high hhigh
    split
    · rename_i hinside
      rw [Expr.ge, proves_le hfree, proves_lt hfree, Bool.and_eq_true, decide_eq_true_eq,
        decide_eq_true_eq] at hinside
      rw [Int.fmod_eq_of_lt (by omega) (by omega)]
      exact hleft
    · exact hwhole
  · exact hwhole

/-- Each operator on sets covers what the operator computes. -/
theorem binaryValues_covers (hfree : facts.Consistent) (hleft : left.Covers dtype x)
    (hright : right.Covers dtype y) (hop : op.isPredicate = false)
    (hends : EndsStayWithin dtype op left right) (hvalue : op.compute? x y = some value)
    {node : Expr} (hnode : node.dtype = dtype) :
    (facts.binaryValues op node left right).Covers dtype value := by
  cases op <;> simp only [BinaryOp.compute?, Option.some.injEq] at hvalue
  case add =>
    subst hvalue
    exact ⟨rfl,
      hends.bothEnds rfl hleft.low_end hright.low_end fun _ _ hl hr => ⟨_, rfl, add_le_add hl hr⟩,
      hends.bothEnds rfl hleft.high_end hright.high_end
        fun _ _ hl hr => ⟨_, rfl, add_le_add hl hr⟩⟩
  case sub =>
    subst hvalue
    exact ⟨rfl,
      hends.bothEnds rfl hleft.low_end hright.high_end fun _ _ hl hr => ⟨_, rfl, sub_le_sub hl hr⟩,
      hends.bothEnds rfl hleft.high_end hright.low_end
        fun _ _ hl hr => ⟨_, rfl, sub_le_sub hl hr⟩⟩
  case mul =>
    subst hvalue
    exact productValues_covers hfree hleft hright hends
  case floorDiv =>
    obtain ⟨-, rfl⟩ := Word.eq_fdiv_of_floorDiv? hvalue
    simp only [binaryValues]
    split
    · exact quotientValues_covers hfree hleft hright hends ‹_›
    · exact ValueSet.covers_everything _ _
  case floorMod =>
    obtain ⟨-, rfl⟩ := Word.eq_fmod_of_floorMod? hvalue
    simp only [binaryValues]
    split
    · rename_i hdivisor
      obtain ⟨rfl, hy, hpos, -⟩ := eq_of_signedPoint? hfree hright hdivisor
      rw [hnode]
      exact remaindersBy_covers hfree hleft hy (hpos rfl)
    · exact ValueSet.covers_everything _ _
  case min =>
    subst hvalue
    exact ⟨rfl,
      hends.bothEnds rfl hleft.low_end hright.low_end fun _ _ hl hr => ⟨_, rfl, min_le_min hl hr⟩,
      hends.eitherEnd rfl hleft.high_end hright.high_end
        (fun _ _ hl hr => ⟨_, rfl, min_le_min hl hr⟩) (fun _ => (min_le_left x y).trans)
        fun _ => (min_le_right x y).trans⟩
  case max =>
    subst hvalue
    exact ⟨rfl,
      hends.eitherEnd rfl hleft.low_end hright.low_end
        (fun _ _ hl hr => ⟨_, rfl, max_le_max hl hr⟩) (fun _ hl => hl.trans (le_max_left x y))
        fun _ hr => hr.trans (le_max_right x y),
      hends.bothEnds rfl hleft.high_end hright.high_end
        fun _ _ hl hr => ⟨_, rfl, max_le_max hl hr⟩⟩
  all_goals cases hop

/-- Wherever the analysis of an expression combines the ends of two sets, it stays within
their type. Conversions and truth values are left out. -/
def EndsWithin (facts : Facts) (domains : Domains) : Expr → Prop
  | .const _ _ | .var _ => True
  | .cast _ _ | .neg _ | .not _ => False
  | .binary op lhs rhs =>
    EndsWithin facts domains lhs ∧ EndsWithin facts domains rhs ∧ op.isPredicate = false ∧
      EndsStayWithin lhs.dtype op (facts.rawValues domains lhs) (facts.rawValues domains rhs)

instance decidableEndsWithin (facts : Facts) (domains : Domains) :
    DecidablePred (facts.EndsWithin domains)
  | .const _ _ | .var _ => inferInstanceAs (Decidable True)
  | .cast _ _ | .neg _ | .not _ => inferInstanceAs (Decidable False)
  | .binary op lhs rhs =>
    haveI := decidableEndsWithin facts domains lhs
    haveI := decidableEndsWithin facts domains rhs
    inferInstanceAs (Decidable (facts.EndsWithin domains lhs ∧ facts.EndsWithin domains rhs ∧
      op.isPredicate = false ∧ EndsStayWithin lhs.dtype op (facts.rawValues domains lhs)
        (facts.rawValues domains rhs)))

variable {domains : Domains} {assignment : Assignment}

/-- The set of an exact arithmetic expression covers its value. -/
theorem rawValues_covers (hfree : facts.Consistent) (hcover : domains.Cover assignment)
    (hformed : e.Formed) (hexact : e.Exact assignment) (hends : facts.EndsWithin domains e)
    (hvalue : e.eval assignment = .ok value) :
    (facts.rawValues domains e).Covers e.dtype value := by
  induction e generalizing value with
  | const dtype literal =>
      rw [Expr.eval_const_of_contains hformed, Except.ok.injEq] at hvalue
      exact hvalue ▸ ValueSet.covers_point hformed
  | var v =>
      obtain ⟨set, hset, hcovers⟩ := hcover v value hvalue
      rw [rawValues, hset]
      exact hcovers
  | cast dtype source ih => exact hends.elim
  | neg operand ih => exact hends.elim
  | not operand ih => exact hends.elim
  | binary op lhs rhs ihl ihr =>
      obtain ⟨hlhs, hrhs, same, -⟩ := hformed
      obtain ⟨hleft, hright, hop, hstay⟩ := hends
      have hlogical : op.isLogical = false :=
        Bool.eq_false_of_not_eq_true (BinaryOp.not_isLogical hop)
      obtain ⟨x, y, hx, hy, hexact', hresult, -⟩ := hexact.eval_binary hlogical hvalue
      have hcovers := ihl hlhs hexact.1 hleft hx
      have hcovers' := ihr hrhs hexact' hright hy
      rw [← same] at hcovers'
      have hdtype : (Expr.binary op lhs rhs).dtype = lhs.dtype := by simp [Expr.dtype, hop]
      simp only [rawValues, hcovers.nonempty, hcovers'.nonempty, Bool.or_self, Bool.false_eq_true,
        if_false]
      rw [hdtype]
      split
      · rename_i first second hfirst hsecond
        have hmem := ValueSet.mem_ends_of_point? hfirst
        have hmem' := ValueSet.mem_ends_of_point? hsecond
        obtain ⟨rfl, -⟩ := hcovers.eq_of_point? hfirst
        obtain ⟨rfl, -⟩ := hcovers'.eq_of_point? hsecond
        obtain ⟨heq, hcontains⟩ := hstay.combine hop hmem hmem' hresult
        rw [heq]
        exact ValueSet.covers_point hcontains
      · exact binaryValues_covers hfree hcovers hcovers' hop hstay hresult hdtype

/-- Simplifying literal ends changes nothing. -/
theorem values_covers (hfree : facts.Consistent) (hcover : domains.Cover assignment)
    (hformed : e.Formed) (hexact : e.Exact assignment) (hends : facts.EndsWithin domains e)
    (hvalue : e.eval assignment = .ok value) :
    (facts.values e domains).Covers e.dtype value :=
  (rawValues_covers hfree hcover hformed hexact hends hvalue).mapEnds
    fun _ => simplify_const _ _ _

end Facts

end LoopNest
