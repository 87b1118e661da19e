/-
# Passes over a nest

A pass that moves through a nest reads on one side of each relation and writes on
the other. In a nest the side it reads is always known by then, and the side it
writes is still untouched. So a pass whose steps succeed succeeds, and what a step
establishes about the variables of its relation is still true in the end, because no
later step writes to any of them.

What is true of one step is stated through a view `read` of the state, which may
hold more than the values.

That a run keeps what its steps keep, in either direction, needs no nest. It is shown for
any stage, and all else about runs is derived from it.
-/

import LoopNest.Flow.Basic
import LoopNest.Proofs.Outcome
import LoopNest.Proofs.Stage.Linked

namespace LoopNest

@[simp] theorem Halt.keeping_ok {σ α : Type} (state : σ) (value : α) :
    Halt.keeping state (.ok value) = .ok value := rfl

namespace Stage

variable {σ α : Type} {stage : Stage} {settled : Option α → Prop} {read : σ → IterId → Option α}
  {invariant : σ → Prop} {condition : (IterId → Option α) → Relation → Prop}
  {step : σ → Relation → Except (Halt σ) σ} {state : σ}

/-- A value that is there, or that a lenient pass can do without, is read as it is. -/
theorem read?_eq_ok {pass : PassName} {lenient : Bool} {values : IterMap α} {id : IterId}
    (h : lenient = true ∨ (values.get? id).isSome = true) :
    stage.read? pass lenient values id = .ok (values.get? id) := by
  rw [read?]
  cases hfound : values.get? id with
  | some value => rfl
  | none =>
      rw [hfound] at h
      rw [h.resolve_right (by simp)]
      rfl

/-- A pass upward deals with the relations from the last one to the first. What its steps keep
of those that are dealt with holds of all in the end. -/
theorem flowUp_run {motive : List Relation → σ → Prop} (hstart : motive [] state)
    (hstep : ∀ before relation after middle, stage.relations = before ++ relation :: after →
      motive after middle →
      ∃ next, step middle relation = .ok next ∧ motive (relation :: after) next) :
    ∃ final, stage.flowUp step state = .ok final ∧ motive stage.relations final := by
  have hafter : ∀ after before, stage.relations = before ++ after →
      ∃ final, after.reverse.foldlM step state = .ok final ∧ motive after final := by
    intro after
    induction after with
    | nil => exact fun _ _ => ⟨state, rfl, hstart⟩
    | cons relation rest ih =>
        intro before hsplit
        obtain ⟨middle, hfold, hmiddle⟩ := ih (before ++ [relation]) (by rw [hsplit]; simp)
        obtain ⟨next, hnext, hkept⟩ := hstep before relation rest middle hsplit hmiddle
        refine ⟨next, ?_, hkept⟩
        rw [List.reverse_cons, List.foldlM_append, hfold, ok_bind, List.foldlM_cons, hnext]
        rfl
  exact hafter stage.relations [] rfl

/-- A pass downward deals with the relations from the first one to the last. It fails as one of
its steps does, or what they keep of the relations that are dealt with holds of all in the end. -/
theorem flowDown_run (failed : Halt σ → Prop) {motive : List Relation → σ → Prop}
    (hstart : motive [] state)
    (hstep : ∀ before relation after middle, stage.relations = before ++ relation :: after →
      motive before middle →
      (∃ halt, step middle relation = .error halt ∧ failed halt) ∨
        ∃ next, step middle relation = .ok next ∧ motive (before ++ [relation]) next) :
    (∃ halt, stage.flowDown step state = .error halt ∧ failed halt) ∨
      ∃ final, stage.flowDown step state = .ok final ∧ motive stage.relations final := by
  have hbefore : ∀ before after, stage.relations = before ++ after →
      (∃ halt, before.foldlM step state = .error halt ∧ failed halt) ∨
        ∃ final, before.foldlM step state = .ok final ∧ motive before final := by
    intro before
    induction before using List.reverseRecOn with
    | nil => exact fun _ _ => .inr ⟨state, rfl, hstart⟩
    | append_singleton rest relation ih =>
        intro after hsplit
        have hsplit' : stage.relations = rest ++ relation :: after := by rw [hsplit]; simp
        rcases ih (relation :: after) hsplit' with ⟨halt, hfold, hfailed⟩ | ⟨middle, hfold, hmiddle⟩
        · exact .inl ⟨halt, by rw [List.foldlM_append, hfold]; rfl, hfailed⟩
        rw [List.foldlM_append, hfold, ok_bind, List.foldlM_cons]
        rcases hstep rest relation after middle hsplit' hmiddle with
          ⟨halt, hhalt, hfailed⟩ | ⟨next, hnext, hkept⟩
        · exact .inl ⟨halt, by rw [hhalt]; rfl, hfailed⟩
        · exact .inr ⟨next, by rw [hnext]; rfl, hkept⟩
  exact hbefore stage.relations [] (by simp)

/-- A condition on a relation that only looks at the values of its own variables. -/
def IsLocal (condition : (IterId → Option α) → Relation → Prop) : Prop :=
  ∀ relation {left right : IterId → Option α},
    (∀ id ∈ relation.inputs ++ relation.outputs, left id = right id) →
      condition left relation → condition right relation

/-- A part of a pass that deals with some relations: it writes to `targets` only, settles
each of them and establishes the condition of every relation. -/
structure Completes (settled : Option α → Prop) (read : σ → IterId → Option α)
    (invariant : σ → Prop) (condition : (IterId → Option α) → Relation → Prop)
    (relations : List Relation) (targets : List IterId) (state next : σ) : Prop where
  invariant : invariant next
  known : ∀ id ∈ targets, settled (read next id)
  frame : ∀ id, id ∉ targets → read next id = read state id
  conditions : ∀ relation ∈ relations, condition (read next) relation

/-- A part of a pass that gives each of its targets a value. -/
abbrev Writes (read : σ → IterId → Option α) (invariant : σ → Prop)
    (condition : (IterId → Option α) → Relation → Prop) (relations : List Relation)
    (targets : List IterId) (state next : σ) : Prop :=
  Completes (fun value => value.isSome = true) read invariant condition relations targets state next

section Insert

variable {values : IterMap α} {holds : IterMap α → Prop} {relation : Relation}
  {targets : List IterId} {id id' : IterId} {value value' : α}

/-- A relation with one target is dealt with by writing to it. -/
theorem Writes.insert (hinvariant : holds (values.insert id value)) (htargets : targets = [id])
    (hcondition : condition (values.insert id value).get? relation) :
    Writes IterMap.get? holds condition [relation] targets values (values.insert id value) := by
  refine ⟨hinvariant, ?_, fun other hother => ?_, by simpa using hcondition⟩
  · rw [htargets, List.forall_mem_singleton, IterMap.get?_insert, if_pos rfl]
    rfl
  · rw [htargets, List.mem_singleton] at hother
    rw [IterMap.get?_insert, if_neg hother]

/-- A relation with two targets is dealt with by writing to both. -/
theorem Writes.insert_insert (hinvariant : holds ((values.insert id value).insert id' value'))
    (htargets : targets = [id, id'])
    (hcondition : condition ((values.insert id value).insert id' value').get? relation) :
    Writes IterMap.get? holds condition [relation] targets values
      ((values.insert id value).insert id' value') := by
  refine ⟨hinvariant, fun other hother => ?_, fun other hother => ?_, by simpa using hcondition⟩
  · rw [htargets] at hother
    rcases List.mem_pair.mp hother with rfl | rfl
    · simp only [IterMap.get?_insert]
      split <;> simp
    · simp only [IterMap.get?_insert]
      simp
  · simp only [htargets, List.mem_cons, List.not_mem_nil, or_false, not_or] at hother
    rw [IterMap.get?_insert, if_neg hother.2, IterMap.get?_insert, if_neg hother.1]

end Insert

/-- A pass upward succeeds when its steps do, and keeps what they establish. -/
theorem Linked.flowUp_completes (h : stage.Linked) (hlocal : IsLocal condition)
    (hstep : ∀ state, ∀ relation ∈ stage.relations, invariant state →
      (∀ id ∈ relation.outputs, settled (read state id)) →
      ∃ next, step state relation = .ok next ∧
        Completes settled read invariant condition [relation] relation.inputs state next)
    (hinvariant : invariant state) (hleaves : ∀ id ∈ stage.leaves, settled (read state id)) :
    ∃ final, stage.flowUp step state = .ok final ∧
      Completes settled read invariant condition stage.relations
        (stage.relations.flatMap Relation.inputs) state final := by
  refine flowUp_run (motive := fun after =>
    Completes settled read invariant condition after (after.flatMap Relation.inputs) state)
    ⟨hinvariant, by simp, fun _ _ => rfl, by simp⟩
    fun before relation rest middle hsplit hdealt => ?_
  have hrelation : relation ∈ stage.relations := by rw [hsplit]; simp
  -- What the relation makes is a leaf or was computed from a later relation.
  have hready : ∀ id ∈ relation.outputs, settled (read middle id) := by
    intro id hid
    by_cases hused : id ∈ rest.flatMap Relation.inputs
    · exact hdealt.known id hused
    · rw [hdealt.frame id hused]
      exact hleaves id ((h.mem_fate_after hsplit hid).resolve_right hused)
  obtain ⟨next, hnext, hwrites⟩ := hstep middle relation hrelation hdealt.invariant hready
  have hfresh : ∀ id ∈ rest.flatMap Relation.inputs, id ∉ relation.inputs :=
    fun id hid hself => (h.not_mem_fate_after hsplit hself).2 hid
  refine ⟨next, hnext, hwrites.invariant, ?_, ?_, ?_⟩
  · intro id hid
    rcases List.mem_append.mp hid with hself | hlater
    · exact hwrites.known id hself
    · rw [hwrites.frame id (hfresh id hlater)]
      exact hdealt.known id hlater
  · intro id hid
    simp only [List.flatMap_cons, List.mem_append, not_or] at hid
    rw [hwrites.frame id hid.1, hdealt.frame id hid.2]
  · intro other hother
    rcases List.mem_cons.mp hother with rfl | hother
    · exact hwrites.conditions _ List.mem_cons_self
    · refine hlocal other (fun id hid => (hwrites.frame id ?_).symm)
        (hdealt.conditions other hother)
      rcases List.mem_append.mp hid with hinput | houtput
      · exact hfresh id (List.mem_flatMap.mpr ⟨other, hother, hinput⟩)
      · intro hself
        have hordered := h.ordered
        rw [hsplit, List.pairwise_append, List.pairwise_cons] at hordered
        exact hordered.2.1.1 other hother id hself houtput

/-- A pass upward that gives every variable a value. -/
theorem Linked.flowUp_ok (h : stage.Linked) (hlocal : IsLocal condition)
    (hstep : ∀ state, ∀ relation ∈ stage.relations, invariant state →
      (∀ id ∈ relation.outputs, (read state id).isSome) →
      ∃ next, step state relation = .ok next ∧
        Writes read invariant condition [relation] relation.inputs state next)
    (hinvariant : invariant state) (hleaves : ∀ id ∈ stage.leaves, (read state id).isSome) :
    ∃ final, stage.flowUp step state = .ok final ∧
      Writes read invariant condition stage.relations
        (stage.relations.flatMap Relation.inputs) state final :=
  h.flowUp_completes hlocal hstep hinvariant hleaves

/-- A pass downward fails as one of its steps does, or it keeps what they establish. A step
may rely on finding the value of the start where it writes. -/
theorem Linked.flowDown_outcome (h : stage.Linked) (failed : Halt σ → Prop)
    (hlocal : IsLocal condition)
    (hstep : ∀ middle, ∀ relation ∈ stage.relations, invariant middle →
      (∀ id ∈ relation.inputs, settled (read middle id)) →
      (∀ id ∈ relation.outputs, read middle id = read state id) →
      (∃ halt, step middle relation = .error halt ∧ failed halt) ∨
        ∃ next, step middle relation = .ok next ∧
          Completes settled read invariant condition [relation] relation.outputs middle next)
    (hinvariant : invariant state) (hroots : ∀ id ∈ stage.roots, settled (read state id)) :
    (∃ halt, stage.flowDown step state = .error halt ∧ failed halt) ∨
      ∃ final, stage.flowDown step state = .ok final ∧
        Completes settled read invariant condition stage.relations
          (stage.relations.flatMap Relation.outputs) state final := by
  refine flowDown_run failed (motive := fun before =>
    Completes settled read invariant condition before (before.flatMap Relation.outputs) state)
    ⟨hinvariant, by simp, fun _ _ => rfl, by simp⟩
    fun before relation after middle hsplit hdealt => ?_
  have hrelation : relation ∈ stage.relations := by rw [hsplit]; simp
  -- What the relation consumes is a root or was computed from an earlier relation.
  have hready : ∀ id ∈ relation.inputs, settled (read middle id) := by
    intro id hid
    by_cases hmade : id ∈ before.flatMap Relation.outputs
    · exact hdealt.known id hmade
    · rw [hdealt.frame id hmade]
      exact hroots id ((h.mem_origin_before hsplit hid).resolve_right hmade)
  have huntouched : ∀ id ∈ relation.outputs, read middle id = read state id :=
    fun id hid => hdealt.frame id (h.not_mem_outputs_before hsplit hid)
  refine (hstep middle relation hrelation hdealt.invariant hready huntouched).imp_right ?_
  rintro ⟨next, hnext, hwrites⟩
  have hfresh : ∀ id ∈ before.flatMap Relation.outputs, id ∉ relation.outputs :=
    fun id hid hself => h.not_mem_outputs_before hsplit hself hid
  refine ⟨next, hnext, hwrites.invariant, ?_, ?_, ?_⟩
  · intro id hid
    rw [List.flatMap_append, List.flatMap_singleton] at hid
    rcases List.mem_append.mp hid with hearlier | hself
    · rw [hwrites.frame id (hfresh id hearlier)]
      exact hdealt.known id hearlier
    · exact hwrites.known id hself
  · intro id hid
    simp only [List.flatMap_append, List.flatMap_singleton, List.mem_append, not_or] at hid
    rw [hwrites.frame id hid.2, hdealt.frame id hid.1]
  · intro other hother
    rcases List.mem_append.mp hother with hother | hself
    · refine hlocal other (fun id hid => (hwrites.frame id ?_).symm)
        (hdealt.conditions other hother)
      rcases List.mem_append.mp hid with hinput | houtput
      · intro hself
        have hordered := h.ordered
        rw [hsplit, List.pairwise_append] at hordered
        exact hordered.2.2 other hother relation List.mem_cons_self id hinput hself
      · exact hfresh id (List.mem_flatMap.mpr ⟨other, hother, houtput⟩)
    · obtain rfl := List.mem_singleton.mp hself
      exact hwrites.conditions _ List.mem_cons_self

/-- A pass downward succeeds when its steps do, and keeps what they establish. A step may
rely on finding nothing where it writes. -/
theorem Linked.flowDown_completes (h : stage.Linked) (hlocal : IsLocal condition)
    (hstep : ∀ state, ∀ relation ∈ stage.relations, invariant state →
      (∀ id ∈ relation.inputs, settled (read state id)) →
      (∀ id ∈ relation.outputs, read state id = none) →
      ∃ next, step state relation = .ok next ∧
        Completes settled read invariant condition [relation] relation.outputs state next)
    (hinvariant : invariant state) (hroots : ∀ id ∈ stage.roots, settled (read state id))
    (hothers : ∀ id ∈ stage.relations.flatMap Relation.outputs, read state id = none) :
    ∃ final, stage.flowDown step state = .ok final ∧
      Completes settled read invariant condition stage.relations
        (stage.relations.flatMap Relation.outputs) state final := by
  have houtcome := h.flowDown_outcome (fun _ => False) hlocal
    (fun middle relation hrelation hmiddle hready huntouched =>
      .inr (hstep middle relation hrelation hmiddle hready fun id hid =>
        (huntouched id hid).trans
          (hothers id (List.mem_flatMap.mpr ⟨relation, hrelation, hid⟩)))) hinvariant hroots
  exact houtcome.resolve_left fun ⟨_, _, hfailed⟩ => hfailed

/-- A pass downward that gives every variable a value. -/
theorem Linked.flowDown_ok (h : stage.Linked) (hlocal : IsLocal condition)
    (hstep : ∀ state, ∀ relation ∈ stage.relations, invariant state →
      (∀ id ∈ relation.inputs, (read state id).isSome) →
      (∀ id ∈ relation.outputs, read state id = none) →
      ∃ next, step state relation = .ok next ∧
        Writes read invariant condition [relation] relation.outputs state next)
    (hinvariant : invariant state) (hroots : ∀ id ∈ stage.roots, (read state id).isSome)
    (hothers : ∀ id ∈ stage.relations.flatMap Relation.outputs, read state id = none) :
    ∃ final, stage.flowDown step state = .ok final ∧
      Writes read invariant condition stage.relations
        (stage.relations.flatMap Relation.outputs) state final :=
  h.flowDown_completes hlocal hstep hinvariant hroots hothers

end Stage

end LoopNest
