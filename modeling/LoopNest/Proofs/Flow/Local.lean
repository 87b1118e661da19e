/-
# Local steps

A step of a pass deals with one relation. It reads the values of the iteration variables of
that relation, and either fails or changes the values of some of them; it neither reads nor
changes anything else. Steps for relations that share no iteration variable therefore do not
notice each other and can be taken in either order, with the same outcome: both orders fail,
or they end in the same state.

What counts as reading and as changing is stated once for every kind of state. Steps are
built from reads, and so is the proof that they are local: each read is dealt with by one
rule, and what is left after all reads is a change.
-/

import LoopNest.Flow.Accesses
import LoopNest.Flow.Flags
import LoopNest.Flow.Indices
import LoopNest.Flow.Ranges
import LoopNest.Guard.Overrun
import LoopNest.Proofs.Flow.Passes
import LoopNest.Proofs.Stage.IterMap

namespace LoopNest

@[simp] theorem Halt.toOption_keeping {σ α : Type} (state : σ) (result : Except StageError α) :
    (Halt.keeping state result).toOption = result.toOption :=
  toOption_mapError _ _

namespace IterMap

variable {α : Type} {entries others : List (IterId × α)} {id id' : IterId}

theorem fillSlot_comm {n m : Nat} (h : n ≠ m) (value other : α) (slots : List (Option α)) :
    fillSlot value n (fillSlot other m slots) = fillSlot other m (fillSlot value n slots) := by
  fun_induction fillSlot other m slots generalizing n with
  | case1 =>
      cases n with
      | zero => exact absurd rfl h
      | succ n => rfl
  | case2 slot rest =>
      cases n with
      | zero => exact absurd rfl h
      | succ n => rfl
  | case3 m ih =>
      cases n with
      | zero => rfl
      | succ n => exact congrArg (none :: ·) (ih (by omega))
  | case4 m slot rest ih =>
      cases n with
      | zero => rfl
      | succ n => exact congrArg (slot :: ·) (ih (by omega))

/-- Values at different iteration variables can be inserted in either order. -/
theorem insert_comm (h : id ≠ id') (map : IterMap α) (value value' : α) :
    (map.insert id value).insert id' value' = (map.insert id' value').insert id value := by
  have hindex : id'.index ≠ id.index := by
    rintro heq
    cases id
    cases id'
    exact h (congrArg IterId.mk heq.symm)
  exact congrArg IterMap.mk (fillSlot_comm hindex _ _ _)

theorem insertAll_insert_comm (h : ∀ entry ∈ entries, entry.1 ≠ id) (map : IterMap α)
    (value : α) :
    (map.insert id value).insertAll entries = (map.insertAll entries).insert id value := by
  induction entries generalizing map with
  | nil => rfl
  | cons entry rest ih =>
      rw [List.forall_mem_cons] at h
      have hcomm := insert_comm (Ne.symm h.1) map value entry.2
      simp only [insertAll, List.foldl_cons] at ih ⊢
      rw [hcomm, ih h.2]

theorem insertAll_comm (h : ∀ entry ∈ entries, ∀ other ∈ others, entry.1 ≠ other.1)
    (map : IterMap α) :
    (map.insertAll others).insertAll entries = (map.insertAll entries).insertAll others := by
  induction others generalizing map with
  | nil => rfl
  | cons other rest ih =>
      have hfirst : ∀ entry ∈ entries, entry.1 ≠ other.1 :=
        fun entry hentry => h entry hentry other List.mem_cons_self
      have hrest : ∀ entry ∈ entries, ∀ other ∈ rest, entry.1 ≠ other.1 :=
        fun entry hentry other hother => h entry hentry other (List.mem_cons_of_mem _ hother)
      have hinsert := insertAll_insert_comm hfirst map other.2
      simp only [insertAll, List.foldl_cons] at ih hinsert ⊢
      rw [ih hrest, hinsert]

theorem get?_insertAll_of_notMem (h : ∀ entry ∈ entries, entry.1 ≠ id) (map : IterMap α) :
    (map.insertAll entries).get? id = map.get? id := by
  induction entries generalizing map with
  | nil => rfl
  | cons entry rest ih =>
      rw [List.forall_mem_cons] at h
      have hrest := ih h.2 (map.insert entry.1 entry.2)
      rw [get?_insert, if_neg (Ne.symm h.1)] at hrest
      exact hrest

theorem get?_insertAll_congr {map other : IterMap α} (h : map.get? id = other.get? id) :
    (map.insertAll entries).get? id = (other.insertAll entries).get? id := by
  induction entries generalizing map other with
  | nil => exact h
  | cons entry rest ih =>
      have hnext :
          (map.insert entry.1 entry.2).get? id = (other.insert entry.1 entry.2).get? id := by
        rw [get?_insert, get?_insert, h]
      exact ih hnext

end IterMap

/-- A kind of state that holds values for iteration variables, with the changes that count as
changes of the values of some of them. They leave other values alone, what they make of a value
depends on that value only, and changes of different values can be made in either order. -/
structure StateView (σ α : Type) where
  read : σ → IterId → Option α
  Changes : List IterId → (σ → σ) → Prop
  frame : ∀ {ids change}, Changes ids change → ∀ state, ∀ id, id ∉ ids →
    read (change state) id = read state id
  congr : ∀ {ids change}, Changes ids change → ∀ {state other id},
    read state id = read other id → read (change state) id = read (change other) id
  comp : ∀ {ids change change'}, Changes ids change → Changes ids change' →
    Changes ids fun state => change' (change state)
  comm : ∀ {ids ids' change change'}, Changes ids change → Changes ids' change' →
    ids.Disjoint ids' → ∀ state, change (change' state) = change' (change state)

namespace StateView

variable {σ α β : Type} {view : StateView σ α} {ids ids' : List IterId}
  {step step' : σ → Option σ}

/-- States that have the same values for some iteration variables. -/
def Agree (view : StateView σ α) (ids : List IterId) (state other : σ) : Prop :=
  ∀ id ∈ ids, view.read state id = view.read other id

/-- A step that reads and changes the values of some iteration variables only: what it does is
the same in all states that agree on them. -/
def Local (view : StateView σ α) (ids : List IterId) (step : σ → Option σ) : Prop :=
  ∀ state, ∃ outcome : Option (σ → σ), (∀ change ∈ outcome, view.Changes ids change) ∧
    ∀ other, view.Agree ids state other → step other = outcome.map fun change => change other

namespace Local

theorem fail : view.Local ids fun _ => none :=
  fun _ => ⟨none, by simp, fun _ _ => rfl⟩

theorem change {change : σ → σ} (h : view.Changes ids change) :
    view.Local ids fun state => some (change state) :=
  fun _ => ⟨some change, by simpa using h, fun _ _ => rfl⟩

/-- A step may read first and then go on with what it has read, unless the reading fails. -/
theorem bind {first : σ → Option β} {second : β → σ → Option σ}
    (hfirst : ∀ state other, view.Agree ids state other → first state = first other)
    (hsecond : ∀ value, view.Local ids (second value)) :
    view.Local ids fun state => (first state).bind fun value => second value state := by
  intro state
  cases hvalue : first state with
  | none =>
      refine ⟨none, by simp, fun other hagree => ?_⟩
      beta_reduce
      rw [← hfirst state other hagree, hvalue]
      rfl
  | some value =>
      obtain ⟨outcome, hchanges, hstep⟩ := hsecond value state
      refine ⟨outcome, hchanges, fun other hagree => ?_⟩
      beta_reduce
      rw [← hfirst state other hagree, hvalue]
      exact hstep other hagree

/-- A step may do different things for different values that it reads. -/
theorem cases_read {id : IterId} (hid : id ∈ ids)
    (h : ∀ value, ∃ branch, view.Local ids branch ∧
      ∀ state, view.read state id = value → step state = branch state) :
    view.Local ids step := by
  intro state
  obtain ⟨branch, hlocal, hstep⟩ := h (view.read state id)
  obtain ⟨outcome, hchanges, hbranch⟩ := hlocal state
  refine ⟨outcome, hchanges, fun other hagree => ?_⟩
  rw [hstep other (hagree id hid).symm, hbranch other hagree]

/-- One step may be taken after the other. -/
theorem andThen (h : view.Local ids step) (h' : view.Local ids step') :
    view.Local ids fun state => (step state).bind step' := by
  intro state
  obtain ⟨outcome, hchanges, hstep⟩ := h state
  cases outcome with
  | none => exact ⟨none, by simp, fun other hagree => by simp [hstep other hagree]⟩
  | some change =>
      have hchange := hchanges change rfl
      obtain ⟨outcome', hchanges', hstep'⟩ := h' (change state)
      refine ⟨outcome'.map fun change' state => change' (change state), ?_, fun other hagree => ?_⟩
      · simp only [Option.mem_def, Option.map_eq_some_iff, forall_exists_index, and_imp]
        rintro _ change' hchange' rfl
        exact view.comp hchange (hchanges' change' hchange')
      · have hagree' := hstep' (change other) fun id hid => view.congr hchange (hagree id hid)
        simp only [hstep other hagree, Option.map_some, Option.bind_some, hagree', Option.map_map]
        rfl

/-- What is looked up elsewhere is not read from the state. -/
theorem lookup {first : Option β} {second : β → σ → Option σ}
    (hsecond : ∀ value, view.Local ids (second value)) :
    view.Local ids fun state => first.bind fun value => second value state :=
  bind (fun _ _ _ => rfl) hsecond

/-- A step may read a value and go on with it. -/
theorem read {second : β → σ → Option σ} {first : σ → β}
    (hfirst : ∀ state other, view.Agree ids state other → first state = first other)
    (hsecond : ∀ value, view.Local ids (second value)) :
    view.Local ids fun state => second (first state) state :=
  bind (fun state other hagree => congrArg some (hfirst state other hagree)) hsecond

/-- Local steps that touch different iteration variables can be taken in either order. -/
theorem comm (h : view.Local ids step) (h' : view.Local ids' step')
    (hapart : ids.Disjoint ids') (state : σ) :
    (step state).bind step' = (step' state).bind step := by
  obtain ⟨outcome, hchanges, hstep⟩ := h state
  obtain ⟨outcome', hchanges', hstep'⟩ := h' state
  have hfirst : ∀ change ∈ outcome', step (change state) =
      outcome.map fun other => other (change state) :=
    fun change hchange => hstep _ fun id hid =>
      (view.frame (hchanges' change hchange) state id fun hid' => hapart hid hid').symm
  have hsecond : ∀ change ∈ outcome, step' (change state) =
      outcome'.map fun other => other (change state) :=
    fun change hchange => hstep' _ fun id hid' =>
      (view.frame (hchanges change hchange) state id fun hid => hapart hid hid').symm
  rw [hstep state fun _ _ => rfl, hstep' state fun _ _ => rfl]
  cases outcome with
  | none =>
      cases outcome' with
      | none => rfl
      | some change' => exact (hfirst change' rfl).symm
  | some change =>
      cases outcome' with
      | none => exact hsecond change rfl
      | some change' =>
          have hcomm := view.comm (hchanges change rfl) (hchanges' change' rfl) hapart state
          exact (hsecond change rfl).trans
            ((congrArg some hcomm.symm).trans (hfirst change' rfl).symm)

end Local

end StateView

namespace IterMap

variable {α : Type} {ids : List IterId} {id id' : IterId}

/-- A map is changed by inserting values. -/
def view : StateView (IterMap α) α where
  read := get?
  Changes ids change := ∃ entries, (∀ entry ∈ entries, entry.1 ∈ ids) ∧
    change = fun map => map.insertAll entries
  frame := by
    rintro ids change ⟨entries, hentries, rfl⟩ map id hid
    have houtside : ∀ entry ∈ entries, entry.1 ≠ id :=
      fun entry hentry heq => hid (heq ▸ hentries entry hentry)
    exact get?_insertAll_of_notMem houtside map
  congr := by
    rintro ids change ⟨entries, -, rfl⟩ map other id h
    exact get?_insertAll_congr h
  comp := by
    rintro ids change change' ⟨entries, hentries, rfl⟩ ⟨others, hothers, rfl⟩
    refine ⟨entries ++ others, fun entry hentry => ?_, ?_⟩
    · exact (List.mem_append.mp hentry).elim (hentries entry) (hothers entry)
    · simp only [insertAll, List.foldl_append]
  comm := by
    rintro ids ids' change change' ⟨entries, hentries, rfl⟩ ⟨others, hothers, rfl⟩ hapart map
    exact insertAll_comm (fun entry hentry other hother heq =>
      hapart (hentries entry hentry) (heq ▸ hothers other hother)) map

theorem local_unchanged (ids : List IterId) : (view : StateView (IterMap α) α).Local ids some :=
  .change ⟨[], by simp, rfl⟩

theorem local_insert (hid : id ∈ ids) (value : α) :
    view.Local ids fun map => some (map.insert id value) :=
  .change ⟨[(id, value)], by simpa using hid, rfl⟩

theorem local_insert_insert (hid : id ∈ ids) (hid' : id' ∈ ids) (value value' : α) :
    view.Local ids fun map => some ((map.insert id value).insert id' value') :=
  .change ⟨[(id, value), (id', value')], by simp [hid, hid'], rfl⟩

end IterMap

namespace Relation

variable {parent outer inner fused rebased iter : IterId} {size : SplitSize}

/-- The iteration variables that a step for a relation may read and change. -/
def touched (relation : Relation) : List IterId :=
  relation.inputs ++ relation.outputs

@[simp] theorem touched_split : (split parent outer inner size).touched = [parent, outer, inner] :=
  rfl

@[simp] theorem touched_fuse : (fuse outer inner fused).touched = [outer, inner, fused] := rfl

@[simp] theorem touched_rebase : (rebase parent rebased).touched = [parent, rebased] := rfl

@[simp] theorem touched_singleton : (singleton iter).touched = [iter] := rfl

end Relation

namespace Stage

section Reads

variable {α : Type} {stage : Stage} {state other : IterMap α} {ids : List IterId}
  {id id' : IterId} {lenient : Bool} {pass : PassName}

theorem require_congr (h : state.get? id = other.get? id) :
    stage.require pass state id = stage.require pass other id := by
  rw [require, require, h]

/-- A step may read a value that has to be there. -/
theorem local_require {second : α → IterMap α → Option (IterMap α)} (hid : id ∈ ids)
    (h : ∀ value, IterMap.view.Local ids (second value)) :
    IterMap.view.Local ids fun state =>
      (stage.require pass state id).toOption.bind fun value => second value state :=
  .bind (fun _ _ hagree => congrArg _ (require_congr (hagree id hid))) h

/-- A step may read a value that may be missing where the pass is lenient. -/
theorem local_read? {second : Option α → IterMap α → Option (IterMap α)} (hid : id ∈ ids)
    (h : ∀ found, IterMap.view.Local ids (second found)) :
    IterMap.view.Local ids fun state =>
      (stage.read? pass lenient state id).toOption.bind fun found => second found state := by
  refine .bind (fun state other hagree => ?_) h
  have hget : state.get? id = other.get? id := hagree id hid
  rw [read?, read?, hget]

/-- A step may read two values of which either may be missing where the pass is lenient. -/
theorem local_readBoth? {second : Option (α × α) → IterMap α → Option (IterMap α)}
    (hid : id ∈ ids) (hid' : id' ∈ ids) (h : ∀ found, IterMap.view.Local ids (second found)) :
    IterMap.view.Local ids fun state =>
      (stage.readBoth? pass lenient state id id').toOption.bind fun found =>
        second found state := by
  refine .bind (fun state other hagree => ?_) h
  have hget : state.get? id = other.get? id := hagree id hid
  have hget' : state.get? id' = other.get? id' := hagree id' hid'
  rw [readBoth?, readBoth?, hget, hget']

/-- A step may read the flags of two iteration variables at once. -/
theorem local_readEitherFlags? {second : Option Nat → IterMap Nat → Option (IterMap Nat)}
    {reported : IterId} (hid : id ∈ ids) (hid' : id' ∈ ids)
    (h : ∀ found, IterMap.view.Local ids (second found)) :
    IterMap.view.Local ids fun state =>
      (stage.readEitherFlags? pass lenient state id id' reported).toOption.bind fun found =>
        second found state := by
  refine .bind (fun state other hagree => ?_) h
  have hget : state.get? id = other.get? id := hagree id hid
  have hget' : state.get? id' = other.get? id' := hagree id' hid'
  unfold readEitherFlags? IterMap.contains IterMap.getDefault
  rw [hget, hget']

end Reads

section Indices

variable (stage : Stage) (ranges : IterMap Range) (lenient : Bool) (relation : Relation)

theorem local_liftIndex :
    IterMap.view.Local relation.touched fun state =>
      (stage.liftIndex ranges lenient state relation).toOption := by
  cases relation with
  | split parent outer inner size =>
      simp only [liftIndex, Halt.toOption_keeping, toOption_bind]
      refine local_readBoth? (by simp) (by simp) fun found => ?_
      rcases found with _ | ⟨outerIndex, innerIndex⟩
      · exact IterMap.local_unchanged _
      · simp only [toOption_bind]
        exact .lookup fun innerRange => .lookup fun parentRange => .lookup fun iv =>
          IterMap.local_insert (by simp) _
  | fuse outer inner fused =>
      simp only [liftIndex, Halt.toOption_keeping, toOption_bind]
      refine local_read? (by simp) fun found => ?_
      cases found with
      | none => exact IterMap.local_unchanged _
      | some index =>
          simp only [Halt.toOption_keeping, toOption_bind]
          exact .lookup fun innerRange => .lookup fun outerRange => .lookup fun outerVar =>
            .lookup fun innerVar => IterMap.local_insert_insert (by simp) (by simp) _ _
  | rebase parent rebased =>
      simp only [liftIndex, Halt.toOption_keeping, toOption_bind]
      refine local_read? (by simp) fun found => ?_
      cases found with
      | none => exact IterMap.local_unchanged _
      | some index =>
          simp only [toOption_bind]
          exact .lookup fun parentRange => IterMap.local_insert (by simp) _
  | singleton iter => exact IterMap.local_unchanged _

theorem local_lowerIndex (skipOffsets : Bool) :
    IterMap.view.Local relation.touched fun state =>
      (stage.lowerIndex ranges lenient skipOffsets state relation).toOption := by
  cases relation with
  | split parent outer inner size =>
      simp only [lowerIndex, toOption_bind]
      refine local_read? (by simp) fun found => ?_
      cases found with
      | none => exact IterMap.local_unchanged _
      | some index =>
          simp only [toOption_bind]
          refine .lookup fun innerRange => .lookup fun innerAtZero => ?_
          cases innerAtZero with
          | true => exact IterMap.local_insert_insert (by simp) (by simp) _ _
          | false => exact IterMap.local_unchanged _
  | fuse outer inner fused =>
      simp only [lowerIndex, toOption_bind]
      refine local_readBoth? (by simp) (by simp) fun found => ?_
      rcases found with _ | ⟨outerIndex, innerIndex⟩
      · exact IterMap.local_unchanged _
      · simp only [toOption_bind]
        refine .lookup fun outerRange => .lookup fun innerRange => .lookup fun outerAtZero => ?_
        cases outerAtZero with
        | false => exact IterMap.local_unchanged _
        | true =>
            simp only [if_true, toOption_bind]
            refine .lookup fun innerAtZero => ?_
            cases innerAtZero with
            | true => exact IterMap.local_insert (by simp) _
            | false => exact IterMap.local_unchanged _
  | rebase parent rebased =>
      simp only [lowerIndex, toOption_bind]
      refine local_read? (by simp) fun found => ?_
      cases found with
      | none => exact IterMap.local_unchanged _
      | some index =>
          simp only [toOption_bind]
          refine .lookup fun parentRange => .lookup fun parentAtZero => ?_
          cases parentAtZero with
          | true => exact IterMap.local_insert (by simp) _
          | false => exact IterMap.local_unchanged _
  | singleton iter =>
      simp only [lowerIndex, toOption_bind]
      exact .lookup fun iv => IterMap.local_insert (by simp) _

end Indices

section Flags

variable (stage : Stage) (lenient : Bool) (relation : Relation) {ids : List IterId}
  {id id' : IterId}

theorem local_inheritThreads :
    IterMap.view.Local relation.touched fun flags => some (inheritThreads flags relation) := by
  cases relation with
  | split parent outer inner size =>
      exact .read (fun _ _ h => congrArg₂ (fun first second : Option Bool =>
          first.getD default || second.getD default) (h inner (by simp)) (h outer (by simp)))
        fun flag => IterMap.local_insert (by simp) flag
  | fuse outer inner fused =>
      exact .read (fun _ _ h => congrArg (fun flag : Option Bool => flag.getD default)
        (h fused (by simp))) fun flag => IterMap.local_insert_insert (by simp) (by simp) flag flag
  | rebase parent rebased =>
      exact .read (fun _ _ h => congrArg (fun flag : Option Bool => flag.getD default)
        (h rebased (by simp))) fun flag => IterMap.local_insert (by simp) flag
  | singleton iter => exact IterMap.local_unchanged _

theorem joinFlags_eq_insert (state : IterMap Nat) (id : IterId) (flags : Nat) :
    state.joinFlags id flags = state.insert id ((state.get? id).elim flags (· ||| flags)) := by
  rw [IterMap.joinFlags]
  cases state.get? id <;> rfl

theorem local_joinFlags (hid : id ∈ ids) (flags : Nat) :
    IterMap.view.Local ids fun state => some (state.joinFlags id flags) := by
  simp only [joinFlags_eq_insert]
  exact .read (fun _ _ h => congrArg (fun known : Option Nat => known.elim flags (· ||| flags))
    (h id hid)) fun joined => IterMap.local_insert hid joined

theorem local_joinFlags_joinFlags (hid : id ∈ ids) (hid' : id' ∈ ids) (flags : Nat) :
    IterMap.view.Local ids fun state =>
      some ((state.joinFlags id flags).joinFlags id' flags) := by
  let join (known : Option Nat) : Nat := known.elim flags (· ||| flags)
  let joined (known known' : Option Nat) : Nat × Nat :=
    (join known, join (if id' = id then some (join known) else known'))
  simp only [joinFlags_eq_insert, IterMap.get?_insert]
  exact .read (fun _ _ h => congrArg₂ joined (h id hid) (h id' hid'))
    fun both => IterMap.local_insert_insert hid hid' both.1 both.2

theorem local_liftFlags :
    IterMap.view.Local relation.touched fun state =>
      (stage.liftFlags lenient state relation).toOption := by
  cases relation with
  | split parent outer inner size =>
      simp only [liftFlags, toOption_bind]
      refine local_readEitherFlags? (by simp) (by simp) fun found => ?_
      cases found with
      | none => exact IterMap.local_unchanged _
      | some flags => exact local_joinFlags (by simp) flags
  | fuse outer inner fused =>
      simp only [liftFlags, toOption_bind]
      refine local_read? (by simp) fun found => ?_
      cases found with
      | none => exact IterMap.local_unchanged _
      | some flags => exact local_joinFlags_joinFlags (by simp) (by simp) flags
  | rebase parent rebased =>
      simp only [liftFlags, toOption_bind]
      refine local_read? (by simp) fun found => ?_
      cases found with
      | none => exact IterMap.local_unchanged _
      | some flags => exact local_joinFlags (by simp) flags
  | singleton iter => exact IterMap.local_unchanged _

theorem local_lowerFlags :
    IterMap.view.Local relation.touched fun state =>
      (stage.lowerFlags lenient state relation).toOption := by
  cases relation with
  | split parent outer inner size =>
      simp only [lowerFlags, toOption_bind]
      refine local_read? (by simp) fun found => ?_
      cases found with
      | none => exact IterMap.local_unchanged _
      | some flags => exact local_joinFlags_joinFlags (by simp) (by simp) flags
  | fuse outer inner fused =>
      simp only [lowerFlags, toOption_bind]
      refine local_readEitherFlags? (by simp) (by simp) fun found => ?_
      cases found with
      | none => exact IterMap.local_unchanged _
      | some flags => exact local_joinFlags (by simp) flags
  | rebase parent rebased =>
      simp only [lowerFlags, toOption_bind]
      refine local_read? (by simp) fun found => ?_
      cases found with
      | none => exact IterMap.local_unchanged _
      | some flags => exact local_joinFlags (by simp) flags
  | singleton iter => exact IterMap.local_insert (by simp) _

end Flags

theorem local_liftOverrun (stage : Stage) (ranges : IterMap Range) (facts : Facts)
    (relation : Relation) :
    IterMap.view.Local relation.touched fun state =>
      (stage.liftOverrun ranges facts state relation).toOption := by
  cases relation with
  | split parent outer inner size =>
      simp only [liftOverrun, toOption_bind]
      refine local_require (by simp) fun outerOverruns => ?_
      cases outerOverruns with
      | true => exact IterMap.local_insert (by simp) true
      | false =>
          simp only [Bool.false_eq_true, if_false, toOption_bind]
          refine local_require (by simp) fun innerOverruns => ?_
          cases innerOverruns with
          | true => exact IterMap.local_insert (by simp) true
          | false =>
              simp only [Bool.false_eq_true, if_false, toOption_bind]
              exact .lookup fun exactly => IterMap.local_insert (by simp) (!exactly)
  | fuse outer inner fused =>
      simp only [liftOverrun, toOption_bind]
      exact local_require (by simp) fun overruns =>
        IterMap.local_insert_insert (by simp) (by simp) overruns overruns
  | rebase parent rebased =>
      simp only [liftOverrun, toOption_bind]
      exact local_require (by simp) fun overruns =>
        IterMap.local_insert (by simp) overruns
  | singleton iter => exact IterMap.local_unchanged _

end Stage

namespace Accesses

variable {ids : List IterId} {id id' : IterId}

/-- Sets are inserted, and projections that did not fit are counted. -/
def view : StateView Accesses ValueSet where
  read state := state.sets.get?
  Changes ids change := ∃ entries count, (∀ entry ∈ entries, entry.1 ∈ ids) ∧
    change = fun state => ⟨state.sets.insertAll entries, state.misaligned + count⟩
  frame := by
    rintro ids change ⟨entries, count, hentries, rfl⟩ state id hid
    have houtside : ∀ entry ∈ entries, entry.1 ≠ id :=
      fun entry hentry heq => hid (heq ▸ hentries entry hentry)
    exact IterMap.get?_insertAll_of_notMem houtside state.sets
  congr := by
    rintro ids change ⟨entries, count, -, rfl⟩ state other id h
    exact IterMap.get?_insertAll_congr h
  comp := by
    rintro ids change change' ⟨entries, count, hentries, rfl⟩ ⟨others, count', hothers, rfl⟩
    refine ⟨entries ++ others, count + count', fun entry hentry => ?_, ?_⟩
    · exact (List.mem_append.mp hentry).elim (hentries entry) (hothers entry)
    · simp only [IterMap.insertAll, List.foldl_append, Nat.add_assoc]
  comm := by
    rintro ids ids' change change' ⟨entries, count, hentries, rfl⟩ ⟨others, count', hothers, rfl⟩
      hapart state
    have hcomm := IterMap.insertAll_comm (fun entry hentry other hother heq =>
      hapart (hentries entry hentry) (heq ▸ hothers other hother)) state.sets
    exact congrArg₂ Accesses.mk hcomm (Nat.add_right_comm _ _ _)

theorem local_unchanged (ids : List IterId) : view.Local ids some :=
  .change ⟨[], 0, by simp, rfl⟩

theorem local_insert (hid : id ∈ ids) (set : ValueSet) :
    view.Local ids fun state => some (state.insert id set) :=
  .change ⟨[(id, set)], 0, by simpa using hid, rfl⟩

end Accesses

theorem Stage.local_liftAccesses (stage : Stage) (ranges : IterMap Range) (facts : Facts)
    (relation : Relation) :
    Accesses.view.Local relation.touched fun state =>
      (stage.liftAccesses ranges facts state relation).toOption := by
  cases relation with
  | split parent outer inner size =>
      simp only [liftAccesses, toOption_bind]
      refine .bind (fun _ _ h => congrArg _ (require_congr (h outer (by simp)))) fun outerSet =>
        .bind (fun _ _ h => congrArg _ (require_congr (h inner (by simp)))) fun innerSet =>
        .lookup fun outerRange => .lookup fun innerRange => .lookup fun parentRange => ?_
      split
      · exact Accesses.local_insert (by simp) _
      · simp only [toOption_bind]
        exact .lookup fun outerVar => .lookup fun innerVar => Accesses.local_insert (by simp) _
  | fuse outer inner fused =>
      simp only [liftAccesses, toOption_bind]
      refine .bind (fun _ _ h => congrArg _ (require_congr (h fused (by simp)))) fun fusedSet =>
        .lookup fun outerRange => .lookup fun innerRange => .lookup fun fusedRange => ?_
      exact .change ⟨[(outer, _), (inner, _)], _, by simp, rfl⟩
  | rebase parent rebased =>
      simp only [liftAccesses, toOption_bind]
      refine .bind (fun _ _ h => congrArg _ (require_congr (h rebased (by simp))))
        fun rebasedSet => .lookup fun rebasedRange => .lookup fun parentRange => ?_
      split
      · exact Accesses.local_insert (by simp) _
      · simp only [toOption_bind]
        exact .lookup fun rebasedVar => Accesses.local_insert (by simp) _
  | singleton iter => exact Accesses.local_unchanged _

namespace Stage

variable {stage : Stage} {ids : List IterId} {id : IterId}

/-- Recording a range reads and changes that range only, besides the facts. -/
theorem local_recordRange (hid : id ∈ ids) (facts : Facts) (range : Range)
    {next : Facts → IterMap Range → Option (IterMap Range)}
    (hnext : ∀ facts, IterMap.view.Local ids (next facts)) :
    IterMap.view.Local ids fun ranges =>
      (stage.recordRange ⟨ranges, facts⟩ id range).toOption.bind fun recorded =>
        next recorded.facts recorded.ranges := by
  refine .cases_read hid fun known => ?_
  cases known with
  | none =>
      refine ⟨fun ranges => (stage.iterVar id).toOption.bind fun iv =>
        (some (ranges.insert id range)).bind (next (facts.bind iv.var range)),
        .lookup fun iv => (IterMap.local_insert hid range).andThen (hnext _), fun ranges h => ?_⟩
      have hnone : ranges.get? id = none := h
      simp only [recordRange, hnone, toOption_bind, Option.bind_assoc]
      rfl
  | some existing =>
      cases hagrees : facts.agrees existing range with
      | true =>
          refine ⟨next facts, hnext facts, fun ranges h => ?_⟩
          have hknown : ranges.get? id = some existing := h
          simp only [recordRange, hknown, hagrees]
          rfl
      | false =>
          refine ⟨fun _ => none, .fail, fun ranges h => ?_⟩
          have hknown : ranges.get? id = some existing := h
          simp only [recordRange, hknown, hagrees]
          rfl

/-- Range inference is local as long as the facts are the same. -/
theorem local_inferRanges (stage : Stage) (dominance : IterMap Bool) (lenient : Bool)
    (facts : Facts) (relation : Relation) :
    IterMap.view.Local relation.touched fun ranges =>
      (stage.inferRanges dominance lenient ⟨ranges, facts⟩ relation).toOption.bind fun inferred =>
        some inferred.ranges := by
  have hone : ∀ {ids : List IterId} {id : IterId} (_ : id ∈ ids) (range : Range) (facts : Facts),
      IterMap.view.Local ids fun ranges =>
        (stage.recordRange ⟨ranges, facts⟩ id range).toOption.bind fun recorded =>
          some recorded.ranges :=
    fun hid range facts => local_recordRange hid facts range fun _ => IterMap.local_unchanged _
  cases relation with
  | split parent outer inner size =>
      have hboth : ∀ first second : IterId, first ∈ [parent, outer, inner] →
          second ∈ [parent, outer, inner] → ∀ made : Range × Range,
          IterMap.view.Local [parent, outer, inner] fun ranges =>
            ((stage.recordRange ⟨ranges, facts⟩ first made.1).toOption.bind fun recorded =>
              (stage.recordRange recorded second made.2).toOption).bind fun inferred =>
                some inferred.ranges := by
        intro first second hfirst hsecond made
        simp only [Option.bind_assoc]
        exact local_recordRange hfirst facts made.1 fun facts => hone hsecond made.2 facts
      simp only [inferRanges, toOption_bind, Halt.toOption_keeping, Option.bind_assoc]
      refine local_read? (by simp) fun found => ?_
      cases found with
      | none => exact IterMap.local_unchanged _
      | some parentRange =>
          simp only [toOption_bind, Halt.toOption_keeping]
          cases size with
          | factor extent => exact hboth inner outer (by simp) (by simp) _
          | parts extent => exact hboth outer inner (by simp) (by simp) _
  | fuse outer inner fused =>
      simp only [inferRanges, toOption_bind, Halt.toOption_keeping, Option.bind_assoc]
      refine local_readBoth? (by simp) (by simp) fun found => ?_
      rcases found with _ | ⟨outerRange, innerRange⟩
      · exact IterMap.local_unchanged _
      · simp only [toOption_bind, Option.bind_assoc]
        exact .lookup fun iv => IterMap.local_insert (by simp) _
  | rebase parent rebased =>
      simp only [inferRanges, toOption_bind, Halt.toOption_keeping, Option.bind_assoc]
      refine local_read? (by simp) fun found => ?_
      cases found with
      | none => exact IterMap.local_unchanged _
      | some parentRange => exact hone (by simp) _ facts
  | singleton iter =>
      simp only [inferRanges, toOption_bind, Halt.toOption_keeping, Option.bind_assoc]
      exact .lookup fun iv => hone (by simp) _ facts

end Stage

end LoopNest
