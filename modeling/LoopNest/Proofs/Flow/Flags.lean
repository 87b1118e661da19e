/-
# Flags and ancestry

After a lenient pass upward a loop has the flags of all loops that are derived from it, after one
downward those of all loops that it is derived from. A loop counts itself among both, and it has
an entry exactly when one of the loops it collects from had one at the start. Downward a
singleton starts without flags, whatever it was given.

Each pass goes through the relations once. That is enough in a valid stage: upward every relation
that consumes a loop comes after the one that makes it, so the flags of what a relation makes are
complete when they are passed on; downward a loop is made once, so the flags of what a relation
consumes are complete. How often a loop is consumed does not matter.

A pass that is not lenient does the same where it succeeds.
-/

import LoopNest.Flow.Flags
import LoopNest.Proofs.Flow.Passes
import LoopNest.Proofs.Stage.Ancestry

namespace LoopNest

/-- The flags of two loops together, each of which may have no entry. -/
def joinedFlags (first second : Option Nat) : Option Nat :=
  first.merge (· ||| ·) second

/-- The flags of some loops together. -/
def joinedFlagsOf (flags : IterId → Option Nat) (ids : List IterId) : Option Nat :=
  ids.foldr (fun id => joinedFlags (flags id)) none

/-- A value collects the entries of some loops: it is there when one of them has an entry, and
it has a flag, that is a bit, when one of the entries has it. -/
structure Collects (flags : IterId → Option Nat) (sources : IterId → Prop)
    (value : Option Nat) : Prop where
  known : value.isSome = true ↔ ∃ id, sources id ∧ (flags id).isSome = true
  bits : ∀ bit, (value.getD 0).testBit bit = true ↔
    ∃ id, sources id ∧ ((flags id).getD 0).testBit bit = true

section Collects

variable {flags values : IterId → Option Nat} {sources others : IterId → Prop}
  {value value' : Option Nat} {id : IterId} {ids : List IterId}

theorem isSome_joinedFlags (first second : Option Nat) :
    (joinedFlags first second).isSome = (first.isSome || second.isSome) := by
  cases first <;> cases second <;> rfl

theorem getD_joinedFlags (first second : Option Nat) :
    (joinedFlags first second).getD 0 = first.getD 0 ||| second.getD 0 := by
  cases first <;> cases second <;> simp [joinedFlags]

namespace Collects

theorem congr (h : Collects flags sources value) (hsources : ∀ id, others id ↔ sources id) :
    Collects flags others value := by
  obtain rfl : others = sources := funext fun id => propext (hsources id)
  exact h

/-- What a loop has itself. -/
theorem self (flags : IterId → Option Nat) (id : IterId) :
    Collects flags (fun source => id = source) (flags id) where
  known := by simp
  bits := by simp

theorem nothing : Collects flags (fun _ => False) none where
  known := by simp
  bits := by simp

/-- There is one value that collects the entries of given loops. -/
theorem unique (h : Collects flags sources value) (h' : Collects flags sources value') :
    value = value' := by
  have hknown : value.isSome = value'.isSome := Bool.eq_iff_iff.mpr (h.known.trans h'.known.symm)
  have hbits : value.getD 0 = value'.getD 0 :=
    Nat.eq_of_testBit_eq fun bit => Bool.eq_iff_iff.mpr ((h.bits bit).trans (h'.bits bit).symm)
  cases value <;> cases value' <;> simp_all

theorem joined (h : Collects flags sources value) (h' : Collects flags others value') :
    Collects flags (fun source => sources source ∨ others source) (joinedFlags value value') where
  known := by
    simp only [isSome_joinedFlags, Bool.or_eq_true, h.known, h'.known, or_and_right, exists_or]
  bits bit := by
    simp only [getD_joinedFlags, Nat.testBit_or, Bool.or_eq_true, h.bits, h'.bits, or_and_right,
      exists_or]

theorem joinedAll {collected : IterId → IterId → Prop}
    (h : ∀ id ∈ ids, Collects flags (collected id) (values id)) :
    Collects flags (fun source => ∃ id ∈ ids, collected id source) (joinedFlagsOf values ids) := by
  induction ids with
  | nil => exact nothing.congr (by simp)
  | cons first rest ih =>
      rw [List.forall_mem_cons] at h
      exact (h.1.joined (ih h.2)).congr fun source => List.exists_mem_cons_iff ..

end Collects

end Collects

section Steps

variable {state next : IterMap Nat} {first second target target' : IterId}

theorem joinedFlags_none (value : Option Nat) : joinedFlags value none = value := by
  cases value <;> rfl

theorem joinedFlagsOf_one (flags : IterId → Option Nat) (id : IterId) :
    joinedFlagsOf flags [id] = flags id :=
  joinedFlags_none _

theorem joinedFlagsOf_two (flags : IterId → Option Nat) (id id' : IterId) :
    joinedFlagsOf flags [id, id'] = joinedFlags (flags id) (flags id') := by
  rw [joinedFlagsOf, List.foldr_cons, ← joinedFlagsOf, joinedFlagsOf_one]

theorem joinedFlags_twice (value : Option Nat) (flags : Nat) :
    joinedFlags (joinedFlags value (some flags)) (some flags) = joinedFlags value (some flags) := by
  cases value with
  | none => exact congrArg some (Nat.or_self flags)
  | some known =>
      have htwice : known ||| flags ||| flags = known ||| flags := by
        rw [Nat.or_assoc, Nat.or_self]
      exact congrArg some htwice

/-- Some loops get flags on top of their own, and nothing else changes. -/
def Gains (targets : List IterId) (flags : Option Nat) (state next : IterMap Nat) : Prop :=
  ∀ id, next.get? id =
    if id ∈ targets then joinedFlags (state.get? id) flags else state.get? id

namespace Gains

variable {targets : List IterId} {flags : Nat}

theorem nothing : Gains targets none state state := by
  intro id
  rw [joinedFlags_none, ite_self]

theorem one : Gains [target] (some flags) state (state.joinFlags target flags) := by
  intro id
  rw [IterMap.joinFlags]
  by_cases hid : id = target
  · subst hid
    cases state.get? id <;> simp [IterMap.get?_insert, joinedFlags]
  · cases state.get? target <;> simp [IterMap.get?_insert, hid]

/-- The two loops may be the same: flags that are joined in twice are joined in once. -/
theorem two : Gains [target, target'] (some flags) state
    ((state.joinFlags target flags).joinFlags target' flags) := by
  intro id
  rw [one id, one id]
  simp only [List.mem_cons, List.not_mem_nil, or_false]
  by_cases hid : id = target
  · simp only [if_pos hid, if_pos (Or.inl hid), joinedFlags_twice, ite_self]
  · simp only [hid, if_false, false_or]

end Gains

/-- A singleton resets the flags of its loop. -/
def Relation.resetFlags (relation : Relation) (state : IterMap Nat) : IterMap Nat :=
  match relation with
  | .singleton iter => state.insert iter 0
  | _ => state

theorem Relation.get?_resetFlags (relation : Relation) (state : IterMap Nat) (id : IterId) :
    (relation.resetFlags state).get? id =
      if relation = .singleton id then some 0 else state.get? id := by
  cases relation with
  | split | fuse | rebase => simp [resetFlags]
  | singleton iter => simp [resetFlags, IterMap.get?_insert, eq_comm]

theorem Relation.get?_resetFlags_of_not_mem {relation : Relation} {id : IterId}
    (hid : id ∉ relation.outputs) : (relation.resetFlags state).get? id = state.get? id := by
  rw [Relation.get?_resetFlags, if_neg]
  rintro rfl
  exact hid (List.mem_singleton_self id)

namespace Stage

variable {stage : Stage} {relation : Relation} {pass : PassName} {lenient : Bool}
  {reported : IterId}

theorem readEitherFlags?_lenient :
    stage.readEitherFlags? pass true state first second reported =
      .ok (joinedFlags (state.get? first) (state.get? second)) := by
  rw [readEitherFlags?, IterMap.contains, IterMap.contains, IterMap.getDefault, IterMap.getDefault]
  cases state.get? first <;> cases state.get? second <;> simp [joinedFlags, default]

/-- At one relation of a lenient pass upward, what it consumes gets the flags of what it
makes. -/
theorem liftFlags_lenient (stage : Stage) (state : IterMap Nat) (relation : Relation) :
    ∃ next, stage.liftFlags true state relation = .ok next ∧
      Gains relation.inputs (joinedFlagsOf state.get? relation.outputs) state next := by
  cases relation with
  | split parent outer inner size =>
      rw [liftFlags, readEitherFlags?_lenient, ok_bind, Relation.outputs, joinedFlagsOf_two]
      cases joinedFlags (state.get? outer) (state.get? inner) with
      | none => exact ⟨state, rfl, .nothing⟩
      | some flags => exact ⟨_, rfl, .one⟩
  | fuse outer inner fused =>
      rw [liftFlags, read?_eq_ok (.inl rfl), ok_bind, Relation.outputs, joinedFlagsOf_one]
      cases state.get? fused with
      | none => exact ⟨state, rfl, .nothing⟩
      | some flags => exact ⟨_, rfl, .two⟩
  | rebase parent rebased =>
      rw [liftFlags, read?_eq_ok (.inl rfl), ok_bind, Relation.outputs, joinedFlagsOf_one]
      cases state.get? rebased with
      | none => exact ⟨state, rfl, .nothing⟩
      | some flags => exact ⟨_, rfl, .one⟩
  | singleton iter => exact ⟨state, rfl, fun id => (if_neg List.not_mem_nil).symm⟩

/-- At one relation of a lenient pass downward, what it makes gets the flags of what it
consumes; the loop of a singleton is reset first. -/
theorem lowerFlags_lenient (stage : Stage) (state : IterMap Nat) (relation : Relation) :
    ∃ next, stage.lowerFlags true state relation = .ok next ∧
      Gains relation.outputs (joinedFlagsOf state.get? relation.inputs)
        (relation.resetFlags state) next := by
  cases relation with
  | split parent outer inner size =>
      rw [lowerFlags, read?_eq_ok (.inl rfl), ok_bind, Relation.inputs, joinedFlagsOf_one]
      cases state.get? parent with
      | none => exact ⟨state, rfl, .nothing⟩
      | some flags => exact ⟨_, rfl, .two⟩
  | fuse outer inner fused =>
      rw [lowerFlags, readEitherFlags?_lenient, ok_bind, Relation.inputs, joinedFlagsOf_two]
      cases joinedFlags (state.get? outer) (state.get? inner) with
      | none => exact ⟨state, rfl, .nothing⟩
      | some flags => exact ⟨_, rfl, .one⟩
  | rebase parent rebased =>
      rw [lowerFlags, read?_eq_ok (.inl rfl), ok_bind, Relation.inputs, joinedFlagsOf_one]
      cases state.get? parent with
      | none => exact ⟨state, rfl, .nothing⟩
      | some flags => exact ⟨_, rfl, .one⟩
  | singleton iter => exact ⟨state.insert iter 0, rfl, .nothing⟩

theorem read?_lenient_of_eq_ok {id : IterId} {found : Option Nat}
    (h : stage.read? pass lenient state id = .ok found) :
    stage.read? pass true state id = .ok found := by
  cases lenient with
  | true => exact h
  | false =>
      rw [read?] at h ⊢
      revert h
      cases state.get? id with
      | some flags => intro h; exact h
      | none => intro h; cases h

theorem readEitherFlags?_lenient_of_eq_ok {found : Option Nat}
    (h : stage.readEitherFlags? pass lenient state first second reported = .ok found) :
    stage.readEitherFlags? pass true state first second reported = .ok found := by
  rw [readEitherFlags?] at h ⊢
  split at h
  · rw [if_pos ‹_›]
    exact h
  · cases lenient with
    | true => rw [if_neg ‹_›]; exact h
    | false => cases h

/-- What a step upward does when it succeeds does not depend on whether it is lenient. -/
theorem liftFlags_lenient_of_eq_ok (h : stage.liftFlags lenient state relation = .ok next) :
    stage.liftFlags true state relation = .ok next := by
  cases relation with
  | split =>
      obtain ⟨found, hfound, hnext⟩ := bind_eq_ok.mp h
      exact bind_eq_ok.mpr ⟨found, readEitherFlags?_lenient_of_eq_ok hfound, hnext⟩
  | fuse | rebase =>
      obtain ⟨found, hfound, hnext⟩ := bind_eq_ok.mp h
      exact bind_eq_ok.mpr ⟨found, read?_lenient_of_eq_ok hfound, hnext⟩
  | singleton => exact h

/-- What a step downward does when it succeeds does not depend on whether it is lenient. -/
theorem lowerFlags_lenient_of_eq_ok (h : stage.lowerFlags lenient state relation = .ok next) :
    stage.lowerFlags true state relation = .ok next := by
  cases relation with
  | fuse =>
      obtain ⟨found, hfound, hnext⟩ := bind_eq_ok.mp h
      exact bind_eq_ok.mpr ⟨found, readEitherFlags?_lenient_of_eq_ok hfound, hnext⟩
  | split | rebase =>
      obtain ⟨found, hfound, hnext⟩ := bind_eq_ok.mp h
      exact bind_eq_ok.mpr ⟨found, read?_lenient_of_eq_ok hfound, hnext⟩
  | singleton => exact h

end Stage

end Steps

namespace Stage

variable {stage : Stage} {lenient : Bool} {seeds final : IterMap Nat} {id : IterId}

theorem flagsUp_lenient_of_eq_ok (h : stage.flagsUp lenient seeds = .ok final) :
    stage.flagsUp true seeds = .ok final :=
  foldlM_eq_ok_of_imp (fun _ _ _ hstep =>
    mapError_eq_ok.mpr (liftFlags_lenient_of_eq_ok (mapError_eq_ok.mp hstep))) h

theorem flagsDown_lenient_of_eq_ok (h : stage.flagsDown lenient seeds = .ok final) :
    stage.flagsDown true seeds = .ok final :=
  foldlM_eq_ok_of_imp (fun _ _ _ hstep =>
    mapError_eq_ok.mpr (lowerFlags_lenient_of_eq_ok (mapError_eq_ok.mp hstep))) h

/-- What a pass downward starts from: the loop of a singleton has no flags, and any other has
those it was given. -/
def grounded (stage : Stage) (seeds : IterMap Nat) (id : IterId) : Option Nat :=
  if .singleton id ∈ stage.relations then some 0 else seeds.get? id

theorem grounded_eq_of_not_mem_outputs (hid : id ∉ stage.relations.flatMap Relation.outputs) :
    stage.grounded seeds id = seeds.get? id := by
  refine if_neg fun hsingleton => hid ?_
  exact List.mem_flatMap.mpr ⟨.singleton id, hsingleton, List.mem_singleton_self id⟩

/-- A loop that no relation makes collects its own flags only. -/
theorem collects_of_not_mem_outputs (hid : id ∉ stage.relations.flatMap Relation.outputs) :
    Collects (stage.grounded seeds) (stage.DerivesFrom id) (seeds.get? id) := by
  rw [← grounded_eq_of_not_mem_outputs hid]
  exact (Collects.self _ id).congr fun origin => derivesFrom_iff_eq_of_not_mem_outputs hid

/-- Upward, a loop has collected what is derived from it through the last relations. -/
def CollectedUp (stage : Stage) (seeds : IterMap Nat) (after : List Relation)
    (state : IterMap Nat) : Prop :=
  ∀ id, Collects seeds.get? (stage.DerivesThrough after id) (state.get? id)

/-- Downward, what the first relations make has collected what it is derived from, and nothing
else has changed. -/
structure CollectedDown (stage : Stage) (seeds : IterMap Nat) (before : List Relation)
    (state : IterMap Nat) : Prop where
  made : ∀ id ∈ before.flatMap Relation.outputs,
    Collects (stage.grounded seeds) (stage.DerivesFrom id) (state.get? id)
  untouched : ∀ id ∉ before.flatMap Relation.outputs, state.get? id = seeds.get? id

namespace Ordered

variable {before after : List Relation} {relation : Relation} {state : IterMap Nat}

/-- One relation upward. What it makes is consumed by later relations only, so it has collected
all it ever will. -/
theorem liftFlags_collects (h : stage.Ordered)
    (hsplit : stage.relations = before ++ relation :: after)
    (hstate : stage.CollectedUp seeds after state) :
    ∃ next, stage.liftFlags true state relation = .ok next ∧
      stage.CollectedUp seeds (relation :: after) next := by
  obtain ⟨next, hnext, hgains⟩ := liftFlags_lenient stage state relation
  refine ⟨next, hnext, fun id => ?_⟩
  have hgained : Collects seeds.get?
      (fun leaf => ∃ made ∈ relation.outputs, stage.DerivesFrom leaf made)
      (joinedFlagsOf state.get? relation.outputs) :=
    Collects.joinedAll fun made hmade =>
      (hstate made).congr fun leaf => (h.derivesThrough_after_iff hsplit hmade).symm
  rw [hgains id]
  by_cases hid : id ∈ relation.inputs
  · rw [if_pos hid]
    refine ((hstate id).joined hgained).congr fun leaf => ?_
    rw [derivesThrough_cons_iff, and_iff_right hid]
  · rw [if_neg hid]
    refine (hstate id).congr fun leaf => ?_
    rw [derivesThrough_cons_iff, or_iff_left fun hthrough => hid hthrough.1]

/-- A loop has one origin, so it is a singleton when the relation that makes it is one. -/
theorem singleton_mem_iff (h : stage.Ordered) (hrelation : relation ∈ stage.relations)
    (hid : id ∈ relation.outputs) : .singleton id ∈ stage.relations ↔ relation = .singleton id :=
  ⟨fun hsingleton => h.eq_of_mem_outputs hrelation hid hsingleton (List.mem_singleton_self id),
    fun heq => heq ▸ hrelation⟩

/-- One relation downward. What it consumes is a root or was made before, so it has collected
all it ever will, and what it makes still holds what it was given. -/
theorem lowerFlags_collects (h : stage.Ordered)
    (hsplit : stage.relations = before ++ relation :: after)
    (hstate : stage.CollectedDown seeds before state) :
    ∃ next, stage.lowerFlags true state relation = .ok next ∧
      stage.CollectedDown seeds (before ++ [relation]) next := by
  obtain ⟨next, hnext, hgains⟩ := lowerFlags_lenient stage state relation
  have hrelation : relation ∈ stage.relations := by rw [hsplit]; simp
  have hused : ∀ used ∈ relation.inputs,
      Collects (stage.grounded seeds) (stage.DerivesFrom used) (state.get? used) := by
    intro used hinput
    by_cases hmade : used ∈ before.flatMap Relation.outputs
    · exact hstate.made used hmade
    · rw [hstate.untouched used hmade]
      apply collects_of_not_mem_outputs
      rw [hsplit, List.flatMap_append, List.mem_append, not_or]
      exact ⟨hmade, h.not_mem_outputs_of_mem_inputs hsplit hinput⟩
  have hgained := Collects.joinedAll hused
  have hfresh : ∀ id ∈ relation.outputs, id ∉ before.flatMap Relation.outputs :=
    fun id hid hearlier => h.disjoint_outputs hsplit hearlier (List.mem_append_left _ hid)
  refine ⟨next, hnext, fun id hid => ?_, fun id hid => ?_⟩
  · rw [List.flatMap_append, List.flatMap_singleton, List.mem_append] at hid
    rw [hgains id]
    by_cases hself : id ∈ relation.outputs
    · -- A singleton was reset, and any other relation finds what was given at the start.
      have hground : (relation.resetFlags state).get? id = stage.grounded seeds id := by
        simp only [Relation.get?_resetFlags, grounded, h.singleton_mem_iff hrelation hself,
          hstate.untouched id (hfresh id hself)]
      rw [if_pos hself, hground]
      exact ((Collects.self _ id).joined hgained).congr fun origin =>
        h.derivesFrom_output_iff hrelation hself
    · rw [if_neg hself, Relation.get?_resetFlags_of_not_mem hself]
      exact hstate.made id (hid.resolve_right hself)
  · rw [List.flatMap_append, List.flatMap_singleton, List.mem_append, not_or] at hid
    rw [hgains id, if_neg hid.2, Relation.get?_resetFlags_of_not_mem hid.2]
    exact hstate.untouched id hid.1

theorem flagsUp_collects (h : stage.Ordered) (seeds : IterMap Nat) :
    ∃ final, stage.flagsUp true seeds = .ok final ∧
      ∀ id, Collects seeds.get? (fun made => stage.DerivesFrom made id) (final.get? id) := by
  have hstart : stage.CollectedUp seeds [] seeds :=
    fun id => (Collects.self _ id).congr fun leaf => by simp [DerivesThrough, eq_comm]
  obtain ⟨final, hfinal, hcollected⟩ : ∃ final, stage.flagsUp true seeds = .ok final ∧
      stage.CollectedUp seeds stage.relations final :=
    flowUp_run hstart fun before relation after middle hsplit hmiddle => by
      obtain ⟨next, hnext, hcollected⟩ := h.liftFlags_collects hsplit hmiddle
      exact ⟨next, mapError_eq_ok.mpr hnext, hcollected⟩
  exact ⟨final, hfinal, fun id => (hcollected id).congr fun _ => derivesThrough_relations_iff.symm⟩

theorem flagsDown_collects (h : stage.Ordered) (seeds : IterMap Nat) :
    ∃ final, stage.flagsDown true seeds = .ok final ∧
      ∀ id, Collects (stage.grounded seeds) (stage.DerivesFrom id) (final.get? id) := by
  have hstart : stage.CollectedDown seeds [] seeds := ⟨by simp, fun _ _ => rfl⟩
  have hrun : (∃ halt, stage.flagsDown true seeds = .error halt ∧ False) ∨
      ∃ final, stage.flagsDown true seeds = .ok final ∧
        stage.CollectedDown seeds stage.relations final :=
    flowDown_run _ hstart fun before relation after middle hsplit hmiddle => by
      obtain ⟨next, hnext, hcollected⟩ := h.lowerFlags_collects hsplit hmiddle
      exact .inr ⟨next, mapError_eq_ok.mpr hnext, hcollected⟩
  obtain ⟨final, hfinal, hcollected⟩ := hrun.resolve_left fun ⟨_, _, hfailed⟩ => hfailed
  refine ⟨final, hfinal, fun id => ?_⟩
  by_cases hid : id ∈ stage.relations.flatMap Relation.outputs
  · exact hcollected.made id hid
  · rw [hcollected.untouched id hid]
    exact collects_of_not_mem_outputs hid

/-- Nothing flows into a singleton. -/
theorem collects_singleton (h : stage.Ordered) (hsingleton : .singleton id ∈ stage.relations) :
    Collects (stage.grounded seeds) (stage.DerivesFrom id) (some 0) := by
  rw [← show stage.grounded seeds id = some 0 from if_pos hsingleton]
  refine (Collects.self _ id).congr fun origin => ?_
  rw [h.derivesFrom_output_iff hsingleton (List.mem_singleton_self id)]
  simp [Relation.inputs]

end Ordered

/-- Flags flow along the ancestry of loops. On every valid stage and for all flags at the start a
lenient pass succeeds in both directions. Upward a loop ends with the flags of all that is derived
from it. Downward a singleton ends without flags, and any other loop with the flags of all that it
is derived from, where singletons have none. A pass that is not lenient ends with the same map if
it succeeds. -/
theorem flags_follow_ancestry (hvalid : stage.validate = .ok ()) (seeds : IterMap Nat) :
    (∃ up, stage.flagsUp true seeds = .ok up ∧
      (∀ id, Collects seeds.get? (fun made => stage.DerivesFrom made id) (up.get? id)) ∧
      ∀ final, stage.flagsUp false seeds = .ok final → final = up) ∧
    ∃ down, stage.flagsDown true seeds = .ok down ∧
      (∀ id, .singleton id ∈ stage.relations → down.get? id = some 0) ∧
      (∀ id, .singleton id ∉ stage.relations →
        Collects (stage.grounded seeds) (stage.DerivesFrom id) (down.get? id)) ∧
      ∀ final, stage.flagsDown false seeds = .ok final → final = down := by
  have h := validate_eq_ok_iff.mp hvalid
  obtain ⟨up, hup, hcollectsUp⟩ := h.flagsUp_collects seeds
  obtain ⟨down, hdown, hcollectsDown⟩ := h.flagsDown_collects seeds
  refine ⟨⟨up, hup, hcollectsUp, fun final hfinal => ?_⟩, down, hdown,
    fun id hsingleton => (hcollectsDown id).unique (h.collects_singleton hsingleton),
    fun id _ => hcollectsDown id, fun final hfinal => ?_⟩
  · exact Except.ok.inj ((flagsUp_lenient_of_eq_ok hfinal).symm.trans hup)
  · exact Except.ok.inj ((flagsDown_lenient_of_eq_ok hfinal).symm.trans hdown)

/-- A stage that no sequence of operations makes: its root is both split and rebased, and a part
of each is fused. One more loop is a singleton. -/
def forked : Stage where
  __ := empty "forked" .globalMemory
  iterVars := ["i", "outer", "inner", "rebased", "fused", "single"].zipIdx.map fun (name, index) =>
    ⟨⟨.iteration index, name, .int32⟩, none, .parallel⟩
  roots := [⟨0⟩]
  relations := [.split ⟨0⟩ ⟨1⟩ ⟨2⟩ (.factor (.const .int32 4)), .rebase ⟨0⟩ ⟨3⟩, .fuse ⟨2⟩ ⟨3⟩ ⟨4⟩,
    .singleton ⟨5⟩]
  leaves := [⟨1⟩, ⟨4⟩, ⟨5⟩]

/-- Flags for four of the loops of `forked`. -/
def forkedSeeds : IterMap Nat :=
  .ofList [(⟨0⟩, 1), (⟨2⟩, 2), (⟨4⟩, 4), (⟨5⟩, 8)]

/-- The fused loop of `forked` feeds the root through two relations, and is fed along both. -/
theorem flags_follow_ancestry_forked :
    forked.validate = .ok () ∧
      Collects forkedSeeds.get? (fun made => forked.DerivesFrom made ⟨0⟩) (some 7) ∧
      Collects (forked.grounded forkedSeeds) (forked.DerivesFrom ⟨4⟩) (some 7) := by
  have hvalid : forked.validate = .ok () := by rfl
  obtain ⟨⟨up, hup, hcollectsUp, -⟩, down, hdown, -, hcollectsDown, -⟩ :=
    flags_follow_ancestry hvalid forkedSeeds
  refine ⟨hvalid, ?_, ?_⟩
  · have hroot : up.get? ⟨0⟩ = some 7 := by
      obtain rfl := Except.ok.inj hup
      rfl
    exact hroot ▸ hcollectsUp ⟨0⟩
  · have hfused : down.get? ⟨4⟩ = some 7 := by
      obtain rfl := Except.ok.inj hdown
      rfl
    exact hfused ▸ hcollectsDown ⟨4⟩ (by decide)

end Stage

end LoopNest
