/-
# Values of conversions

A conversion wraps, and wrapping does not keep the order. The analysis converts the two ends
of a set all the same. That is right as long as wrapping moves both ends by the same amount:
then it moves everything between them by that amount too. Otherwise somewhere between the
ends wrapping goes over from the greatest value of the type to the least, and the converted
ends only enclose what happens there when they are these two values themselves. So for a
variable this condition on the ends is both sufficient and necessary.
-/

import LoopNest.Proofs.Facts.Membership

namespace LoopNest

namespace DType

variable {dtype : DType} {low high x : Int}

theorem contains_minValue (dtype : DType) : dtype.contains dtype.minValue = true := by
  cases dtype <;> decide

theorem contains_maxValue (dtype : DType) : dtype.contains dtype.maxValue = true := by
  cases dtype <;> decide

/-- Wrapping keeps the distance of two numbers. -/
def Shifts (dtype : DType) (low high : Int) : Prop :=
  dtype.truncate high - dtype.truncate low = high - low

instance (dtype : DType) (low high : Int) : Decidable (dtype.Shifts low high) :=
  inferInstanceAs (Decidable (_ = _))

/-- Wrapping moves two numbers by the same amount when the second one then lies in the type. -/
theorem truncate_eq_add (integer : dtype ≠ bool)
    (h : dtype.contains (dtype.truncate low + (x - low)) = true) :
    dtype.truncate x = dtype.truncate low + (x - low) := by
  refine eq_of_modEq (contains_truncate _ _) h ?_
  calc dtype.truncate x ≡ x [ZMOD dtype.modulus] := truncate_modEq integer x
    _ = low + (x - low) := by ring
    _ ≡ dtype.truncate low + (x - low) [ZMOD dtype.modulus] :=
      (truncate_modEq integer low).symm.add_right _

/-- What lies between two numbers whose distance wrapping keeps is moved along with them. -/
theorem Shifts.truncate_eq (h : dtype.Shifts low high) (hlow : low ≤ x) (hhigh : x ≤ high) :
    dtype.truncate x = dtype.truncate low + (x - low) := by
  rw [Shifts] at h
  by_cases hbool : dtype = bool
  · subst hbool
    simp only [truncate] at h ⊢
    split_ifs at h ⊢ <;> omega
  · exact truncate_eq_add hbool (contains_of_between (contains_truncate _ low)
      (contains_truncate _ high) (by omega) (by omega))

theorem modulus_eq (integer : dtype ≠ bool) :
    dtype.modulus = dtype.maxValue - dtype.minValue + 1 := by
  cases dtype <;> first | exact absurd rfl integer | rfl

/-- After the greatest value wrapping goes on with the least. -/
theorem truncate_succ_of_maxValue (integer : dtype ≠ bool)
    (h : dtype.truncate x = dtype.maxValue) : dtype.truncate (x + 1) = dtype.minValue := by
  have hturn : x + 1 ≡ dtype.minValue [ZMOD dtype.modulus] := by
    calc x + 1 ≡ dtype.truncate x + 1 [ZMOD dtype.modulus] :=
          (truncate_modEq integer x).symm.add_right 1
      _ = dtype.minValue + dtype.modulus := by rw [h, modulus_eq integer]; ring
      _ ≡ dtype.minValue [ZMOD dtype.modulus] := Int.add_modEq_right
  rw [truncate_congr hturn, truncate_of_contains dtype.contains_minValue]

/-- Where wrapping does not keep the distance, it goes over from the greatest value to the least
on the way. -/
theorem exists_turn (integer : dtype ≠ bool) (h : ¬dtype.Shifts low high) (hle : low ≤ high) :
    ∃ x, low ≤ x ∧ x + 1 ≤ high ∧ dtype.truncate x = dtype.maxValue ∧
      dtype.truncate (x + 1) = dtype.minValue := by
  obtain ⟨-, hlow⟩ := contains_iff.mp (contains_truncate dtype low)
  -- the number that is as far above the lower end as the greatest value is above its image
  obtain ⟨x, hx⟩ : ∃ x, x = low + (dtype.maxValue - dtype.truncate low) := ⟨_, rfl⟩
  have hgreatest : dtype.truncate low + (x - low) = dtype.maxValue := by omega
  have hvalue : dtype.truncate x = dtype.maxValue := by
    rw [truncate_eq_add integer (hgreatest ▸ dtype.contains_maxValue), hgreatest]
  refine ⟨x, by omega, ?_, hvalue, truncate_succ_of_maxValue integer hvalue⟩
  by_contra hbeyond
  have hcontains : dtype.contains (dtype.truncate low + (high - low)) = true :=
    contains_of_between (contains_truncate dtype low) dtype.contains_maxValue (by omega) (by omega)
  exact h (by rw [Shifts, truncate_eq_add integer hcontains, add_sub_cancel_left])

end DType

namespace Expr

variable {e : Expr} {x : Int}

/-- A converted number is the wrapped number. -/
theorem IsNumber.castTo (h : e.IsNumber x) (dtype : DType) :
    (e.castTo dtype).IsNumber (dtype.truncate x) := by
  obtain ⟨source, rfl, hcontains⟩ := h.exists_const
  rw [Expr.castTo]
  split
  · rename_i hsame
    obtain rfl : source = dtype := hsame
    rw [DType.truncate_of_contains hcontains]
    exact h
  · exact isNumber_const (DType.contains_truncate dtype x)

end Expr

namespace ValueSet

variable {set : ValueSet} {source target : DType} {x y l : Int} {e : Expr}

@[simp] theorem isEmpty_mapEnds (set : ValueSet) (f : Expr → Expr) :
    (set.mapEnds f).isEmpty = set.isEmpty := by
  cases set <;> rfl

@[simp] theorem min?_mapEnds (set : ValueSet) (f : Expr → Expr) :
    (set.mapEnds f).min? = set.min?.map f := by
  cases set <;> rfl

@[simp] theorem max?_mapEnds (set : ValueSet) (f : Expr → Expr) :
    (set.mapEnds f).max? = set.max?.map f := by
  cases set <;> rfl

/-- The least value of a set of numbers of a type. -/
def lowIn (set : ValueSet) (source : DType) : Int :=
  (set.min?.bind Expr.value?).getD source.minValue

/-- The greatest value of a set of numbers of a type. -/
def highIn (set : ValueSet) (source : DType) : Int :=
  (set.max?.bind Expr.value?).getD source.maxValue

/-- The converted ends of a set enclose its converted values: wrapping keeps the distance of the
ends, or the ends that there are become the ends of the type. -/
def CastsTo (set : ValueSet) (source target : DType) : Prop :=
  target.Shifts (set.lowIn source) (set.highIn source) ∨
    (set.min?.isSome = true → target.truncate (set.lowIn source) = target.minValue) ∧
      (set.max?.isSome = true → target.truncate (set.highIn source) = target.maxValue)

instance (set : ValueSet) (source target : DType) : Decidable (set.CastsTo source target) :=
  inferInstanceAs (Decidable (_ ∨ _))

theorem lowIn_of_isNumber (h : set.min? = some e) (he : e.IsNumber l) : set.lowIn source = l := by
  rw [lowIn, h, Option.bind_some, he.2, Option.getD_some]

theorem highIn_of_isNumber (h : set.max? = some e) (he : e.IsNumber l) :
    set.highIn source = l := by
  rw [highIn, h, Option.bind_some, he.2, Option.getD_some]

theorem Has.lowIn_le (h : set.Has x) (hx : source.contains x = true) : set.lowIn source ≤ x := by
  cases hmin : set.min? with
  | none =>
      rw [lowIn, hmin]
      exact (DType.contains_iff.mp hx).1
  | some e =>
      obtain ⟨l, hl, hle⟩ := h.low e hmin
      rwa [lowIn_of_isNumber hmin hl]

theorem Has.le_highIn (h : set.Has x) (hx : source.contains x = true) : x ≤ set.highIn source := by
  cases hmax : set.max? with
  | none =>
      rw [highIn, hmax]
      exact (DType.contains_iff.mp hx).2
  | some e =>
      obtain ⟨u, hu, hle⟩ := h.high e hmax
      rwa [highIn_of_isNumber hmax hu]

/-- Wrapping keeps a value between the wrapped ends, as far as these are there. -/
theorem CastsTo.between (hcast : set.CastsTo source target) (h : set.Has x)
    (hx : source.contains x = true) :
    (set.min?.isSome = true → target.truncate (set.lowIn source) ≤ target.truncate x) ∧
      (set.max?.isSome = true → target.truncate x ≤ target.truncate (set.highIn source)) := by
  have hlow := h.lowIn_le hx
  have hhigh := h.le_highIn hx
  rcases hcast with hshift | ⟨hmin, hmax⟩
  · have hvalue := hshift.truncate_eq hlow hhigh
    rw [DType.Shifts] at hshift
    exact ⟨fun _ => by omega, fun _ => by omega⟩
  · obtain ⟨habove, hbelow⟩ := DType.contains_iff.mp (target.contains_truncate x)
    exact ⟨fun hsome => (hmin hsome).trans_le habove,
      fun hsome => hbelow.trans_eq (hmax hsome).symm⟩

/-- The converted set has the converted value. -/
theorem Has.castTo (h : set.Has x) (hx : source.contains x = true)
    (hcast : set.CastsTo source target) :
    (set.mapEnds fun e => e.castTo target).Has (target.truncate x) := by
  obtain ⟨hlow, hhigh⟩ := hcast.between h hx
  refine ⟨(isEmpty_mapEnds set _).trans h.nonempty, fun e he => ?_, fun e he => ?_⟩
  · rw [min?_mapEnds] at he
    obtain ⟨e', hmin, rfl⟩ := Option.map_eq_some_iff.mp he
    obtain ⟨l, hl, -⟩ := h.low e' hmin
    refine ⟨_, hl.castTo target, ?_⟩
    rw [← lowIn_of_isNumber hmin hl]
    exact hlow (by rw [hmin]; rfl)
  · rw [max?_mapEnds] at he
    obtain ⟨e', hmax, rfl⟩ := Option.map_eq_some_iff.mp he
    obtain ⟨u, hu, -⟩ := h.high e' hmax
    refine ⟨_, hu.castTo target, ?_⟩
    rw [← highIn_of_isNumber hmax hu]
    exact hhigh (by rw [hmax]; rfl)

theorem Covers.has (h : set.Covers source x) : set.Has x :=
  ⟨h.nonempty,
    fun e he => by
      obtain ⟨l, rfl, hl, hle⟩ := h.low e he
      exact ⟨l, Expr.isNumber_const hl, hle⟩,
    fun e he => by
      obtain ⟨u, rfl, hu, hle⟩ := h.high e he
      exact ⟨u, Expr.isNumber_const hu, hle⟩⟩

theorem Covers.contains_lowIn (h : set.Covers source x) :
    source.contains (set.lowIn source) = true := by
  cases hmin : set.min? with
  | none =>
      rw [lowIn, hmin]
      exact source.contains_minValue
  | some e =>
      obtain ⟨l, rfl, hl, -⟩ := h.low e hmin
      rwa [lowIn_of_isNumber hmin (Expr.isNumber_const hl)]

theorem Covers.contains_highIn (h : set.Covers source x) :
    source.contains (set.highIn source) = true := by
  cases hmax : set.max? with
  | none =>
      rw [highIn, hmax]
      exact source.contains_maxValue
  | some e =>
      obtain ⟨u, rfl, hu, -⟩ := h.high e hmax
      rwa [highIn_of_isNumber hmax (Expr.isNumber_const hu)]

/-- Whatever lies between the ends of a literal set is a value of it. -/
theorem Covers.has_of_between (h : set.Covers source x) (hlow : set.lowIn source ≤ y)
    (hhigh : y ≤ set.highIn source) : set.Has y := by
  refine ⟨h.nonempty, fun e he => ?_, fun e he => ?_⟩
  · obtain ⟨l, hl, -⟩ := h.has.low e he
    exact ⟨l, hl, (lowIn_of_isNumber he hl).symm.trans_le hlow⟩
  · obtain ⟨u, hu, -⟩ := h.has.high e he
    exact ⟨u, hu, hhigh.trans_eq (highIn_of_isNumber he hu)⟩

end ValueSet

namespace Facts

variable {facts : Facts} {set : ValueSet} {x y : Int}

/-- The set that the analysis finds for a converted variable. -/
theorem values_cast_var (facts : Facts) (dtype : DType) (v : Var) (set : ValueSet) :
    facts.values (.cast dtype (.var v)) (Domains.empty.insert v set) =
      (set.mapEnds fun e => e.castTo dtype).mapEnds facts.simplify := by
  simp [values, rawValues, Domains.insert]

/-- A converted set encloses exactly what lies between the wrapped ends. -/
theorem between_of_mapEnds_castTo_has {source target : DType} (hset : set.Covers source x)
    (h : ((set.mapEnds fun e => e.castTo target).mapEnds facts.simplify).Has y) :
    (set.min?.isSome = true → target.truncate (set.lowIn source) ≤ y) ∧
      (set.max?.isSome = true → y ≤ target.truncate (set.highIn source)) := by
  have hnumber : ∀ {l : Int}, source.contains l = true →
      (facts.simplify ((Expr.const source l).castTo target)).IsNumber (target.truncate l) := by
    intro l hl
    have hcast := (Expr.isNumber_const hl).castTo target
    obtain ⟨_, heq, -⟩ := hcast.exists_const
    rw [heq] at hcast ⊢
    exact hcast
  refine ⟨fun hsome => ?_, fun hsome => ?_⟩
  · obtain ⟨e, hmin⟩ := Option.isSome_iff_exists.mp hsome
    obtain ⟨l, rfl, hl, -⟩ := hset.low e hmin
    obtain ⟨l', hl', hle⟩ := h.low _ (by simp only [ValueSet.min?_mapEnds, hmin]; rfl)
    rw [ValueSet.lowIn_of_isNumber hmin (Expr.isNumber_const hl)]
    exact ((hnumber hl).unique hl').trans_le hle
  · obtain ⟨e, hmax⟩ := Option.isSome_iff_exists.mp hsome
    obtain ⟨u, rfl, hu, -⟩ := hset.high e hmax
    obtain ⟨u', hu', hle⟩ := h.high _ (by simp only [ValueSet.max?_mapEnds, hmax]; rfl)
    rw [ValueSet.highIn_of_isNumber hmax (Expr.isNumber_const hu)]
    exact hle.trans_eq (hu'.unique (hnumber hu))

/-- The analysis encloses all values of a converted variable exactly when the converted ends do. -/
theorem cast_var_encloses_iff {v : Var} {dtype : DType} (integer : dtype ≠ .bool)
    (hset : set.Covers v.dtype x) (hx : v.dtype.contains x = true) :
    (∀ assignment value, (Domains.empty.insert v set).Hold assignment (.cast dtype (.var v)) →
      (Expr.cast dtype (.var v)).eval assignment = .ok value →
      (facts.values (.cast dtype (.var v)) (Domains.empty.insert v set)).Has value) ↔
      set.CastsTo v.dtype dtype := by
  rw [values_cast_var]
  constructor
  · intro hall
    have hbetween : ∀ y, set.lowIn v.dtype ≤ y → y ≤ set.highIn v.dtype →
        (set.min?.isSome = true → dtype.truncate (set.lowIn v.dtype) ≤ dtype.truncate y) ∧
          (set.max?.isSome = true → dtype.truncate y ≤ dtype.truncate (set.highIn v.dtype)) := by
      intro y hlow hhigh
      have hcontains := DType.contains_of_between hset.contains_lowIn hset.contains_highIn hlow
        hhigh
      refine between_of_mapEnds_castTo_has hset (hall (Assignment.empty.insert v y) _
        ((Domains.hold_empty _ _).insert (hset.has_of_between hlow hhigh) hcontains) ?_)
      exact Expr.eval_cast_of_eval (Assignment.eval_insert_self hcontains)
    by_cases hshift : dtype.Shifts (set.lowIn v.dtype) (set.highIn v.dtype)
    · exact .inl hshift
    · have hle := (hset.has.lowIn_le hx).trans (hset.has.le_highIn hx)
      obtain ⟨y, hlow, hhigh, hgreatest, hleast⟩ := DType.exists_turn integer hshift hle
      obtain ⟨habove, -⟩ := DType.contains_iff.mp (dtype.contains_truncate (set.lowIn v.dtype))
      obtain ⟨-, hbelow⟩ := DType.contains_iff.mp (dtype.contains_truncate (set.highIn v.dtype))
      have hfirst := hbetween y hlow (by omega)
      have hnext := hbetween (y + 1) (by omega) hhigh
      rw [hgreatest] at hfirst
      rw [hleast] at hnext
      exact .inr ⟨fun hsome => le_antisymm (hnext.1 hsome) habove,
        fun hsome => le_antisymm hbelow (hfirst.2 hsome)⟩
  · intro hcast assignment value hhold hvalue
    obtain ⟨y, hy, rfl⟩ := Expr.eval_cast_inv hvalue
    obtain ⟨found, hfound, hhas⟩ := hhold v (Expr.mentions_var_self v) y hy
    obtain rfl : set = found := by simpa [Domains.insert] using hfound
    exact mapEnds_simplify_has (hhas.castTo (Expr.eval_contains hy) hcast)

end Facts

end LoopNest
