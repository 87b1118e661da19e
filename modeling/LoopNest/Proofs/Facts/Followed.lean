/-
# Values of every expression

The set that the analysis finds for an expression has every value of the expression, not only
for arithmetic: comparisons take their truth value there, a logical operator that its left
operand decides takes the decided value whatever stands on the right, and a conversion takes
the wrapped value.

Two things are needed. What is evaluated does not wrap, neither a value nor an end that is
computed from others. Extrema, remainders and predicates cannot wrap, so nothing is asked of
them, and a quotient wraps only where the least value is divided by minus one. And the
converted ends of a conversion enclose what lies between them, for which wrapping has to keep
their distance.
-/

import LoopNest.Proofs.Facts.Conversions

namespace LoopNest

namespace BinaryOp

variable {op : BinaryOp} {dtype : DType} {left right result : Int}

/-- Whether the operator can leave a type that holds both its operands. -/
def overflows : BinaryOp → Bool
  | add | sub | mul | floorDiv => true
  | _ => false

/-- Extrema and remainders stay in the type of the operands. -/
theorem contains_of_not_overflows (hop : op.isPredicate = false)
    (hoverflows : op.overflows = false) (hleft : dtype.contains left = true)
    (hright : dtype.contains right = true) (h : op.compute? left right = some result) :
    dtype.contains result = true := by
  cases op
  case floorMod =>
    obtain ⟨hzero, rfl⟩ := Word.eq_fmod_of_floorMod? h
    rcases lt_or_gt_of_ne hzero with hneg | hpos
    · have hopposite : left.fmod right = -((-left).fmod (-right)) := by
        rw [Int.neg_fmod_neg, neg_neg]
      have hlow := Int.fmod_nonneg_of_pos (-left) (by omega : 0 < -right)
      have hhigh := Int.fmod_lt_of_pos (-left) (by omega : 0 < -right)
      exact DType.contains_of_between hright dtype.contains_zero (by omega) (by omega)
    · exact DType.contains_of_between dtype.contains_zero hright
        (Int.fmod_nonneg_of_pos left hpos) (Int.fmod_lt_of_pos left hpos).le
  case min =>
    obtain rfl := Option.some.inj h
    rcases min_choice left right with heq | heq <;> rw [heq] <;> assumption
  case max =>
    obtain rfl := Option.some.inj h
    rcases max_choice left right with heq | heq <;> rw [heq] <;> assumption
  all_goals first | exact absurd hop (by decide) | exact absurd hoverflows (by decide)

end BinaryOp

namespace Expr

variable {op : BinaryOp} {dtype : DType} {first second : Expr} {x y result : Int}

/-- Operators that cannot leave the type combine literals like integers. -/
theorem IsNumber.combinesExactly (hfirst : first.IsNumber x) (hsecond : second.IsNumber y)
    (hop : op.isPredicate = false) (hoverflows : op.overflows = false)
    (h : op.compute? x y = some result) : CombinesExactly op first second := by
  obtain ⟨_, rfl, hx⟩ := hfirst.exists_const
  obtain ⟨_, rfl, hy⟩ := hsecond.exists_const
  rintro _ ⟨⟩ _ ⟨⟩
  have hcontains := BinaryOp.contains_of_not_overflows hop hoverflows
    (DType.contains_join_left hx _) (DType.contains_join_right hy _) h
  refine ⟨result, h, ?_⟩
  rw [combine_join op hx hy, combine_const_of_contains hop h hcontains]
  rfl

/-- A predicate of literals is a truth value. -/
theorem IsNumber.combine_predicate (hfirst : first.IsNumber x) (hsecond : second.IsNumber y)
    (hop : op.isPredicate = true) (h : op.compute? x y = some result) :
    (combine op first second).IsNumber result := by
  obtain ⟨_, rfl, hx⟩ := hfirst.exists_const
  obtain ⟨_, rfl, hy⟩ := hsecond.exists_const
  have htruth := DType.contains_bool_iff.mpr (BinaryOp.compute?_predicate hop h)
  rw [combine_join op hx hy, combine_const h, resultType, if_pos hop, literal,
    DType.truncate_of_contains htruth]
  exact isNumber_const htruth

theorem isNumber_ofBool (holds : Bool) : (ofBool holds).IsNumber (BinaryOp.truth holds) := by
  have htruth := DType.contains_bool_iff.mpr (BinaryOp.truth_eq_zero_or_one holds)
  rw [ofBool, literal, DType.truncate_of_contains htruth]
  exact isNumber_const htruth

/-- The complement of a number is a truth value. -/
theorem IsNumber.complement (h : first.IsNumber x) :
    first.complement.IsNumber (BinaryOp.truth (decide (x = 0))) := by
  rw [Expr.complement, h.2]
  exact isNumber_ofBool _

/-- A truth value that is brought to the type of another operand stays the same number. -/
theorem exists_promote_const (hx : DType.bool.contains x = true) (second : Expr) :
    ∃ dtype', (promote (const dtype x) second).1 = const dtype' x := by
  have hevery : ∀ dtype' : DType, dtype'.contains x = true := fun dtype' => by
    rcases DType.contains_bool_iff.mp hx with rfl | rfl
    · exact dtype'.contains_zero
    · exact dtype'.contains_one
  unfold promote
  split
  · exact ⟨dtype, rfl⟩
  · split
    · exact ⟨_, castTo_const (hevery _)⟩
    · exact ⟨dtype, rfl⟩
    · exact ⟨_, castTo_const (hevery _)⟩

/-- A truth value that decides a logical operator decides it whatever the other operand is. -/
theorem isNumber_combine_decided (hfirst : first.IsNumber x) (hx : DType.bool.contains x = true)
    (h : op.decidedBy? x = some result) (second : Expr) :
    (combine op first second).IsNumber result := by
  obtain ⟨_, rfl, -⟩ := hfirst.exists_const
  obtain ⟨dtype', hpromote⟩ := exists_promote_const hx second
  have hpredicate := BinaryOp.isPredicate_of_isLogical (BinaryOp.isLogical_of_decidedBy? h)
  rw [combine, hpromote, foldNode]
  generalize (promote _ second).2 = other
  split
  · rename_i folded hfolded
    simp only [foldLiterals?, value?, Option.bind_eq_bind, Option.bind_some, Option.pure_def,
      Option.bind_eq_some_iff, Option.some.injEq] at hfolded
    obtain ⟨y, -, result', hresult', rfl⟩ := hfolded
    rw [BinaryOp.compute?_of_decidedBy? h y, Option.some.injEq] at hresult'
    subst hresult'
    have htruth := DType.contains_bool_iff.mpr
      (BinaryOp.compute?_predicate hpredicate (BinaryOp.compute?_of_decidedBy? h y))
    rw [resultType, if_pos hpredicate, literal, DType.truncate_of_contains htruth]
    exact isNumber_const htruth
  · cases op <;> simp only [BinaryOp.decidedBy?, Option.ite_none_right_eq_some, Option.some.injEq,
      reduceCtorEq] at h
    case and =>
      obtain ⟨rfl, rfl⟩ := h
      exact isNumber_ofBool false
    case or =>
      obtain ⟨hne, rfl⟩ := h
      have hneutral : foldNeutral? .or (const dtype' x) other = some (ofBool true) := by
        simp [foldNeutral?, value?, foldOr, hne]
      rw [hneutral]
      exact isNumber_ofBool true

end Expr

namespace Facts

variable {facts : Facts} {domains : Domains} {assignment : Assignment} {left right : ValueSet}
  {op : BinaryOp} {e : Expr} {x y value : Int}

open ValueSet (endPairs)

/-- Operators that are always defined and cannot leave the type combine all ends like integers. -/
theorem combinesExactly_endPairs {op : BinaryOp} (hop : op.isPredicate = false)
    (hoverflows : op.overflows = false) (htotal : ∀ l r, ∃ result, op.compute? l r = some result)
    {leftEnd rightEnd : Option Expr} {holdsLeft holdsRight : Int → Prop}
    (hleft : ∀ e ∈ leftEnd, ∃ l, e.IsNumber l ∧ holdsLeft l)
    (hright : ∀ e ∈ rightEnd, ∃ r, e.IsNumber r ∧ holdsRight r) :
    ∀ pair ∈ endPairs leftEnd rightEnd, Expr.CombinesExactly op pair.1 pair.2 := by
  intro pair hpair
  simp only [endPairs, Option.mem_toList, Option.bind_eq_some_iff, Option.map_eq_some_iff] at hpair
  obtain ⟨first, hfirst, second, hsecond, rfl⟩ := hpair
  obtain ⟨l, hl, -⟩ := hleft first hfirst
  obtain ⟨r, hr, -⟩ := hright second hsecond
  obtain ⟨result, hresult⟩ := htotal l r
  exact hl.combinesExactly hr hop hoverflows hresult

/-- What is evaluated does not wrap, neither the values nor the ends that the analysis computes,
and the converted ends of a set enclose its converted values. -/
def Follows (facts : Facts) (domains : Domains) (assignment : Assignment) : Expr → Prop
  | .const _ _ | .var _ => True
  | .cast dtype source => Follows facts domains assignment source ∧
    (facts.rawValues domains source).CastsTo source.dtype dtype
  | .neg operand => Follows facts domains assignment operand ∧
    (operand.IfValue assignment fun value => operand.dtype.contains (-value) = true) ∧
    ∀ e ∈ (facts.rawValues domains operand).ends, e.negate.value? = e.value?.map (-·)
  | .not operand => Follows facts domains assignment operand
  | .binary op lhs rhs => Follows facts domains assignment lhs ∧
    lhs.IfValue assignment fun left => op.decidedBy? left = none →
      Follows facts domains assignment rhs ∧ (op.overflows = true →
        (rhs.IfValue assignment fun right => ∀ result ∈ op.compute? left right,
          lhs.dtype.contains result = true) ∧
        ∀ pair ∈ facts.combinedEnds op (facts.rawValues domains lhs) (facts.rawValues domains rhs),
          Expr.CombinesExactly op pair.1 pair.2)

instance decidableFollows (facts : Facts) (domains : Domains) (assignment : Assignment) :
    DecidablePred (facts.Follows domains assignment)
  | .const _ _ | .var _ => inferInstanceAs (Decidable True)
  | .cast dtype source =>
    haveI := decidableFollows facts domains assignment source
    inferInstanceAs (Decidable (facts.Follows domains assignment source ∧
      (facts.rawValues domains source).CastsTo source.dtype dtype))
  | .neg operand =>
    haveI := decidableFollows facts domains assignment operand
    inferInstanceAs (Decidable (facts.Follows domains assignment operand ∧
      (operand.IfValue assignment fun value => operand.dtype.contains (-value) = true) ∧
      ∀ e ∈ (facts.rawValues domains operand).ends, e.negate.value? = e.value?.map (-·)))
  | .not operand => decidableFollows facts domains assignment operand
  | .binary op lhs rhs =>
    haveI := decidableFollows facts domains assignment lhs
    haveI := decidableFollows facts domains assignment rhs
    inferInstanceAs (Decidable (facts.Follows domains assignment lhs ∧
      lhs.IfValue assignment fun left => op.decidedBy? left = none →
        facts.Follows domains assignment rhs ∧ (op.overflows = true →
          (rhs.IfValue assignment fun right => ∀ result ∈ op.compute? left right,
            lhs.dtype.contains result = true) ∧
          ∀ pair ∈ facts.combinedEnds op (facts.rawValues domains lhs)
            (facts.rawValues domains rhs), Expr.CombinesExactly op pair.1 pair.2)))

theorem binaryValues_of_isPredicate (hop : op.isPredicate = true) (node : Expr) :
    facts.binaryValues op node left right = .ofPredicate node := by
  cases op <;> first | rfl | exact absurd hop (by decide)

theorem isEmpty_binaryValues (hleft : left.isEmpty = false) (node : Expr) :
    (facts.binaryValues op node left right).isEmpty = false := by
  have hmoved : ∀ (set : ValueSet) (increasing : Bool) (f : Expr → Expr),
      (set.moveEnds increasing f).isEmpty = false := fun set increasing f => by
    cases increasing <;> rfl
  cases op <;> try rfl
  case mul =>
    simp only [binaryValues, productValues]
    split <;> first | exact hmoved _ _ _ | rfl
  case floorDiv =>
    simp only [binaryValues]
    split <;> first | exact hmoved _ _ _ | rfl
  case floorMod =>
    simp only [binaryValues, remaindersBy]
    split
    · split
      · split
        · exact hleft
        · rfl
      · rfl
    · rfl

/-- Over nonempty sets every expression takes values in a nonempty set. -/
theorem isEmpty_rawValues (hdomains : ∀ v, e.mentions v = true → domains v ≠ some .empty) :
    (facts.rawValues domains e).isEmpty = false := by
  induction e with
  | const dtype value => rfl
  | var v =>
      have hset := hdomains v (Expr.mentions_var_self v)
      rw [rawValues]
      cases hv : domains v with
      | none => rfl
      | some set =>
          cases set with
          | empty => exact absurd hv hset
          | interval low high => rfl
  | cast dtype source ih => exact (ValueSet.isEmpty_mapEnds _ _).trans (ih hdomains)
  | neg operand ih =>
      have hoperand := ih hdomains
      rw [rawValues]
      cases hset : facts.rawValues domains operand with
      | empty => rw [hset] at hoperand; exact hoperand
      | interval low high => rfl
  | not operand ih =>
      rw [rawValues]
      split <;> rfl
  | binary op lhs rhs ihl ihr =>
      have hlhs := ihl fun v hv => hdomains v (by simp [Expr.mentions_binary, hv])
      have hrhs := ihr fun v hv => hdomains v (by simp [Expr.mentions_binary, hv])
      rw [rawValues_binary hlhs hrhs, combinedValues]
      split
      · rfl
      · exact isEmpty_binaryValues hlhs _

/-- Operators that cannot leave the type combine all ends like integers. -/
theorem combinesExactly_of_not_overflows (hleft : left.Has x) (hright : right.Has y)
    (hop : op.isPredicate = false) (hoverflows : op.overflows = false)
    (hvalue : op.compute? x y = some value) :
    ∀ pair ∈ facts.combinedEnds op left right, Expr.CombinesExactly op pair.1 pair.2 := by
  unfold combinedEnds
  split
  · rename_i first second hfirst hsecond
    rw [List.forall_mem_singleton]
    exact (hleft.isNumber_of_point? hfirst).combinesExactly (hright.isNumber_of_point? hsecond)
      hop hoverflows hvalue
  · cases op
    case min =>
      exact List.forall_mem_append.mpr
        ⟨combinesExactly_endPairs rfl rfl (fun _ _ => ⟨_, rfl⟩) hleft.low hright.low,
          combinesExactly_endPairs rfl rfl (fun _ _ => ⟨_, rfl⟩) hleft.high hright.high⟩
    case max =>
      exact List.forall_mem_append.mpr
        ⟨combinesExactly_endPairs rfl rfl (fun _ _ => ⟨_, rfl⟩) hleft.low hright.low,
          combinesExactly_endPairs rfl rfl (fun _ _ => ⟨_, rfl⟩) hleft.high hright.high⟩
    case floorMod => exact fun _ hpair => nomatch hpair
    all_goals first | exact absurd hop (by decide) | exact absurd hoverflows (by decide)

/-- At an arithmetic node nothing wraps when nothing wraps that could. -/
theorem contains_and_combinesExactly {dtype : DType} (hleft : left.Has x) (hright : right.Has y)
    (hx : dtype.contains x = true) (hy : dtype.contains y = true) (hop : op.isPredicate = false)
    (hvalue : op.compute? x y = some value)
    (h : op.overflows = true → dtype.contains value = true ∧
      ∀ pair ∈ facts.combinedEnds op left right, Expr.CombinesExactly op pair.1 pair.2) :
    dtype.contains value = true ∧
      ∀ pair ∈ facts.combinedEnds op left right, Expr.CombinesExactly op pair.1 pair.2 := by
  cases hoverflows : op.overflows with
  | true => exact h hoverflows
  | false =>
      exact ⟨BinaryOp.contains_of_not_overflows hop hoverflows hx hy hvalue,
        combinesExactly_of_not_overflows hleft hright hop hoverflows hvalue⟩

theorem ofPredicate_has (hdtype : e.dtype = .bool) (h : value = 0 ∨ value = 1) :
    (ValueSet.ofPredicate e).Has value := by
  have hone : (Expr.one .bool).IsNumber 1 := Expr.isNumber_ofBool true
  rw [ValueSet.ofPredicate, hdtype]
  exact ValueSet.has_between (Expr.isNumber_zero _) hone (by omega) (by omega)

/-- The truth value of a predicate on two values. -/
theorem combinedValues_has_of_isPredicate (hleft : left.Has x) (hright : right.Has y)
    (hop : op.isPredicate = true) (hvalue : op.compute? x y = some value) {node : Expr}
    (hnode : node.dtype = .bool) : (facts.combinedValues op node left right).Has value := by
  unfold combinedValues
  split
  · rename_i first second hfirst hsecond
    exact ValueSet.has_point ((hleft.isNumber_of_point? hfirst).combine_predicate
      (hright.isNumber_of_point? hsecond) hop hvalue)
  · rw [binaryValues_of_isPredicate hop]
    exact ofPredicate_has hnode (BinaryOp.compute?_predicate hop hvalue)

/-- The truth value that the left operand decides, whatever the right one is. -/
theorem combinedValues_has_of_decidedBy? (hleft : left.Has x) (hx : DType.bool.contains x = true)
    (hvalue : op.decidedBy? x = some value) {node : Expr} (hnode : node.dtype = .bool) :
    (facts.combinedValues op node left right).Has value := by
  have hop := BinaryOp.isPredicate_of_isLogical (BinaryOp.isLogical_of_decidedBy? hvalue)
  unfold combinedValues
  split
  · rename_i first second hfirst hsecond
    exact ValueSet.has_point
      (Expr.isNumber_combine_decided (hleft.isNumber_of_point? hfirst) hx hvalue second)
  · rw [binaryValues_of_isPredicate hop]
    exact ofPredicate_has hnode
      (BinaryOp.compute?_predicate hop (BinaryOp.compute?_of_decidedBy? hvalue 0))

/-- The set of an expression that the analysis follows has its value. -/
theorem rawValues_has_of_follows (hfree : facts.Consistent)
    (hdomains : ∀ v, e.mentions v = true → domains v ≠ some .empty)
    (hhold : domains.Hold assignment e) (hformed : e.Formed)
    (hfollows : facts.Follows domains assignment e) (hvalue : e.eval assignment = .ok value) :
    (facts.rawValues domains e).Has value := by
  induction e generalizing value with
  | const dtype literal =>
      rw [Expr.eval_const_of_contains hformed, Except.ok.injEq] at hvalue
      exact hvalue ▸ ValueSet.has_point (Expr.isNumber_const hformed)
  | var v =>
      obtain ⟨set, hset, hhas⟩ := hhold v (Expr.mentions_var_self v) value hvalue
      rw [rawValues, hset]
      exact hhas
  | cast dtype source ih =>
      obtain ⟨x, hx, rfl⟩ := Expr.eval_cast_inv hvalue
      obtain ⟨hfollows, hcast⟩ := hfollows
      exact (ih hdomains hhold hformed hfollows hx).castTo (Expr.eval_contains hx) hcast
  | neg operand ih =>
      obtain ⟨x, hx, rfl⟩ := Expr.eval_neg_inv hvalue
      obtain ⟨hfollows, hwithin, hends⟩ := hfollows
      rw [DType.truncate_of_contains (hwithin x hx)]
      refine (ih hdomains hhold hformed hfollows hx).negate
        fun e he l hl => ⟨Expr.formed_negate hl.1, ?_⟩
      rw [hends e he, hl.2]
      rfl
  | not operand ih =>
      obtain ⟨x, hx, rfl⟩ := Expr.eval_not_inv hvalue
      have hhas := ih hdomains hhold hformed hfollows hx
      rw [rawValues]
      split
      · rename_i point hpoint
        exact ValueSet.has_point (hhas.isNumber_of_point? hpoint).complement
      · exact ofPredicate_has rfl (BinaryOp.truth_eq_zero_or_one _)
  | binary op lhs rhs ihl ihr =>
      have hmentions : ∀ v, lhs.mentions v = true → (Expr.binary op lhs rhs).mentions v = true :=
        fun v hv => by simp [Expr.mentions_binary, hv]
      have hmentions' : ∀ v, rhs.mentions v = true → (Expr.binary op lhs rhs).mentions v = true :=
        fun v hv => by simp [Expr.mentions_binary, hv]
      obtain ⟨hlhs, hrhs, same, hbool⟩ := hformed
      obtain ⟨hfollows, hopen⟩ := hfollows
      obtain ⟨x, hx, hvalue⟩ := Expr.eval_binary_inv hvalue
      have hhas := ihl (fun v hv => hdomains v (hmentions v hv))
        (fun v hv => hhold v (hmentions v hv)) hlhs hfollows hx
      have hcontains := Expr.eval_contains hx
      rw [rawValues_binary hhas.nonempty
        (isEmpty_rawValues fun v hv => hdomains v (hmentions' v hv))]
      obtain hdecided | ⟨hundecided, y, result, hy, hresult, rfl⟩ := hvalue
      · have hlogical := BinaryOp.isLogical_of_decidedBy? hdecided
        refine combinedValues_has_of_decidedBy? hhas (hbool hlogical ▸ hcontains) hdecided ?_
        simp [Expr.dtype, BinaryOp.isPredicate_of_isLogical hlogical]
      · obtain ⟨hfollows', hwithin⟩ := hopen x hx hundecided
        have hhas' := ihr (fun v hv => hdomains v (hmentions' v hv))
          (fun v hv => hhold v (hmentions' v hv)) hrhs hfollows' hy
        have hcontains' := same ▸ Expr.eval_contains hy
        cases hop : op.isPredicate with
        | true =>
            have hdtype : (Expr.binary op lhs rhs).dtype = .bool := by simp [Expr.dtype, hop]
            have htruth := BinaryOp.compute?_predicate hop hresult
            rw [hdtype, DType.truncate_of_contains (DType.contains_bool_iff.mpr htruth)]
            exact combinedValues_has_of_isPredicate hhas hhas' hop hresult hdtype
        | false =>
            have hdtype : (Expr.binary op lhs rhs).dtype = lhs.dtype := by simp [Expr.dtype, hop]
            obtain ⟨hfits, hends⟩ := contains_and_combinesExactly hhas hhas' hcontains hcontains'
              hop hresult fun hoverflows =>
                ⟨(hwithin hoverflows).1 y hy result hresult, (hwithin hoverflows).2⟩
            rw [hdtype, DType.truncate_of_contains hfits]
            exact combinedValues_has hfree hhas hhas' hop hends hresult _

/-- The analysis encloses every value of an expression over sets for its variables, truth values
and short circuits included, when nothing that is evaluated wraps and the converted ends of
every conversion enclose what lies between them. This last condition cannot be weakened: where
it fails already the conversion of a variable takes a value that its set does not have. -/
theorem values_has_up_to_conversions (hfree : facts.Consistent) :
    (∀ (e : Expr) (domains : Domains) (assignment : Assignment) (value : Int),
      (∀ v, e.mentions v = true → domains v ≠ some .empty) → domains.Hold assignment e →
      e.Formed → facts.Follows domains assignment e → e.eval assignment = .ok value →
        (facts.values e domains).Has value) ∧
    ∀ (v : Var) (dtype : DType) (set : ValueSet) (x : Int), dtype ≠ .bool →
      set.Covers v.dtype x → v.dtype.contains x = true →
      ((∀ assignment value, (Domains.empty.insert v set).Hold assignment (.cast dtype (.var v)) →
        (Expr.cast dtype (.var v)).eval assignment = .ok value →
        (facts.values (.cast dtype (.var v)) (Domains.empty.insert v set)).Has value) ↔
        set.CastsTo v.dtype dtype) :=
  ⟨fun _ _ _ _ hdomains hhold hformed hfollows hvalue =>
      mapEnds_simplify_has (rawValues_has_of_follows hfree hdomains hhold hformed hfollows hvalue),
    fun _ _ _ _ integer hset hx => cast_var_encloses_iff integer hset hx⟩

/-- A parameter of thirty-two bits. -/
def offsetParameter : Var := ⟨.parameter 0, "x", .int32⟩

/-- The literal interval between two numbers of thirty-two bits. -/
def offsets (low high : Int) : ValueSet := .between (.const .int32 low) (.const .int32 high)

/-- Five more than the low byte of the parameter, as a signed number. -/
def lowByteAndFive : Expr := .binary .add (.cast .int8 (.var offsetParameter)) (.const .int8 5)

/-- From 1000 to 1010 the low byte goes from -24 to -14 without a turn, so the analysis follows
it. From 0 to 200 it turns, and the analysis loses the values on both sides. -/
theorem values_has_of_lowByte :
    (empty.values lowByteAndFive (Domains.empty.insert offsetParameter (offsets 1000 1010))).Has
        (-16) ∧
      ¬∀ assignment value, (Domains.empty.insert offsetParameter (offsets 0 200)).Hold assignment
          (.cast .int8 (.var offsetParameter)) →
        (Expr.cast .int8 (.var offsetParameter)).eval assignment = .ok value →
        (empty.values (.cast .int8 (.var offsetParameter))
          (Domains.empty.insert offsetParameter (offsets 0 200))).Has value := by
  have hfree : empty.Consistent := consistent_of_unconstrained rfl
  have hcovers : ∀ {low high x : Int}, DType.int32.contains low = true →
      DType.int32.contains high = true → low ≤ x → x ≤ high →
      (offsets low high).Covers offsetParameter.dtype x := ValueSet.covers_between
  constructor
  · refine (values_has_up_to_conversions hfree).1 lowByteAndFive _
      (Assignment.empty.insert offsetParameter 1003) (-16) ?_ ?_ (by decide) (by decide) rfl
    · intro v hv
      obtain rfl : offsetParameter = v := by
        simpa [lowByteAndFive, Expr.mentions, Expr.anyVar] using hv
      simp [Domains.insert, offsets, ValueSet.between]
    · exact (Domains.hold_empty _ _).insert
        (hcovers (by decide) (by decide) (by decide) (by decide)).has (by decide)
  · intro hall
    have hcast := ((values_has_up_to_conversions hfree).2 offsetParameter .int8 (offsets 0 200) 5
      (by decide) (hcovers (by decide) (by decide) (by decide) (by decide)) (by decide)).mp hall
    exact absurd hcast (by decide)

end Facts

end LoopNest
