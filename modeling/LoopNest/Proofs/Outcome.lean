/-
# Computations that may fail

A computation ends with a value or with an error. What ended with a value did so in all its
parts: both parts of a sequence, every item of a list that is mapped, every step of a fold. So
a run of steps keeps what each step keeps, and it succeeds where each step does. Where only the
value matters the error is forgotten, and the parts are forgetful in the same way.
-/

import Mathlib.Data.List.Basic

namespace LoopNest

variable {ε ε' α β σ : Type}

section Parts

variable {first : Except ε α} {second : α → Except ε β}

/-- A computation in two parts succeeds when both parts do. -/
theorem bind_eq_ok {result : β} : (first >>= second) = .ok result ↔
    ∃ middle, first = .ok middle ∧ second middle = .ok result := by
  cases first <;> simp [bind, Except.bind]

/-- A computation in two parts fails when one of them does. -/
theorem bind_eq_error {error : ε} : (first >>= second) = .error error ↔
    first = .error error ∨ ∃ middle, first = .ok middle ∧ second middle = .error error := by
  cases first <;> simp [bind, Except.bind]

theorem ok_bind {value : α} : ((.ok value : Except ε α) >>= second) = second value := rfl

theorem map_eq_ok {f : α → β} {result : β} :
    f <$> first = .ok result ↔ ∃ value, first = .ok value ∧ f value = result := by
  cases first <;> simp [Functor.map, Except.map]

theorem mapError_eq_ok {f : ε → ε'} {value : α} :
    first.mapError f = .ok value ↔ first = .ok value := by
  cases first <;> simp [Except.mapError]

end Parts

section Lists

variable {f : α → Except ε β} {step step' : σ → α → Except ε σ} {items : List α}
  {state final : σ}

/-- A map over a list succeeds when it does at every item. -/
theorem mapM_eq_ok {g : α → β} (h : ∀ item ∈ items, f item = .ok (g item)) :
    items.mapM f = .ok (items.map g) := by
  induction items with
  | nil => rfl
  | cons item rest ih =>
      rw [List.forall_mem_cons] at h
      rw [List.mapM_cons, h.1, ok_bind, ih h.2, ok_bind]
      rfl

/-- What a map over a list that succeeded has made, it has made of an item. -/
theorem exists_of_mem_mapM {results : List β} (h : items.mapM f = .ok results) :
    ∀ result ∈ results, ∃ item ∈ items, f item = .ok result := by
  induction items generalizing results with
  | nil =>
      obtain rfl : [] = results := Except.ok.inj h
      simp
  | cons item rest ih =>
      simp only [List.mapM_cons, bind_eq_ok] at h
      obtain ⟨first, hfirst, others, hothers, heq⟩ := h
      obtain rfl := Except.ok.inj heq
      rw [List.forall_mem_cons]
      exact ⟨⟨item, List.mem_cons_self, hfirst⟩, fun result hresult =>
        (ih hothers result hresult).imp fun _ h => ⟨List.mem_cons_of_mem _ h.1, h.2⟩⟩

/-- What holds of a fold that succeeded: an invariant is kept, and each item settles something
that later items keep. -/
theorem foldlM_settles (invariant : σ → Prop) (settled : α → σ → Prop)
    (hstep : ∀ state, ∀ item ∈ items, ∀ next, step state item = .ok next → invariant state →
      invariant next ∧ settled item next ∧ ∀ other, settled other state → settled other next)
    (h : items.foldlM step state = .ok final) (hstate : invariant state) :
    invariant final ∧ (∀ item ∈ items, settled item final) ∧
      ∀ other, settled other state → settled other final := by
  induction items generalizing state with
  | nil =>
      obtain rfl : state = final := Except.ok.inj h
      exact ⟨hstate, by simp, fun _ h => h⟩
  | cons item rest ih =>
      rw [List.foldlM_cons, bind_eq_ok] at h
      obtain ⟨next, hnext, hrest⟩ := h
      obtain ⟨hinvariant, hsettled, hkept⟩ := hstep state item List.mem_cons_self next hnext hstate
      obtain ⟨hfinal, hitems, hkept'⟩ := ih (fun state other hother =>
        hstep state other (List.mem_cons_of_mem _ hother)) hrest hinvariant
      exact ⟨hfinal, List.forall_mem_cons.mpr ⟨hkept' item hsettled, hitems⟩,
        fun other hother => hkept' other (hkept other hother)⟩

/-- A fold that succeeded keeps what its steps keep. -/
theorem foldlM_keeps (invariant : σ → Prop)
    (hstep : ∀ state, ∀ item ∈ items, ∀ next, step state item = .ok next → invariant state →
      invariant next)
    (h : items.foldlM step state = .ok final) (hstate : invariant state) : invariant final :=
  (foldlM_settles invariant (fun _ _ => True) (fun state item hitem next hnext hinvariant =>
    ⟨hstep state item hitem next hnext hinvariant, trivial, fun _ h => h⟩) h hstate).1

/-- A fold that succeeded ends the same way with steps that succeed wherever its own do. -/
theorem foldlM_eq_ok_of_imp
    (hstep : ∀ state item next, step state item = .ok next → step' state item = .ok next)
    (h : items.foldlM step state = .ok final) : items.foldlM step' state = .ok final := by
  induction items generalizing state with
  | nil => exact h
  | cons item rest ih =>
      rw [List.foldlM_cons, bind_eq_ok] at h ⊢
      obtain ⟨next, hnext, hrest⟩ := h
      exact ⟨next, hstep state item next hnext, ih hrest⟩

/-- A fold succeeds where every step does, and keeps what every step keeps. -/
theorem foldlM_ok (holds : σ → Prop)
    (hstep : ∀ state, ∀ item ∈ items, holds state →
      ∃ next, step state item = .ok next ∧ holds next) (hstate : holds state) :
    ∃ final, items.foldlM step state = .ok final ∧ holds final := by
  induction items generalizing state with
  | nil => exact ⟨state, rfl, hstate⟩
  | cons item rest ih =>
      obtain ⟨next, hnext, hholds⟩ := hstep state item List.mem_cons_self hstate
      obtain ⟨final, hfold, hfinal⟩ :=
        ih (fun state other hother => hstep state other (List.mem_cons_of_mem _ hother)) hholds
      exact ⟨final, by rw [List.foldlM_cons, hnext, ok_bind, hfold], hfinal⟩

/-- A fold succeeds where every step does, whatever the state is. -/
theorem foldlM_total (hstep : ∀ state, ∀ item ∈ items, ∃ next, step state item = .ok next)
    (state : σ) : ∃ final, items.foldlM step state = .ok final := by
  obtain ⟨final, hfold, -⟩ := foldlM_ok (fun _ => True)
    (fun state item hitem _ => (hstep state item hitem).imp fun _ hnext => ⟨hnext, trivial⟩)
    (trivial : (fun _ => True) state)
  exact ⟨final, hfold⟩

end Lists

section Forgetting

theorem toOption_eq_some {result : Except ε α} {value : α} :
    result.toOption = some value ↔ result = .ok value := by
  cases result <;> simp [Except.toOption]

@[simp] theorem toOption_bind (first : Except ε α) (second : α → Except ε β) :
    (first >>= second).toOption = first.toOption.bind fun value => (second value).toOption := by
  cases first <;> rfl

@[simp] theorem toOption_mapError (f : ε → ε') (result : Except ε α) :
    (result.mapError f).toOption = result.toOption := by
  cases result <;> rfl

@[simp] theorem toOption_ok (value : α) : (.ok value : Except ε α).toOption = some value := rfl

theorem toOption_foldlM (step : σ → α → Except ε σ) (items : List α) (state : σ) :
    (items.foldlM step state).toOption =
      items.foldlM (fun state item => (step state item).toOption) state := by
  induction items generalizing state with
  | nil => rfl
  | cons item rest ih =>
      simp only [List.foldlM_cons, toOption_bind, ih]
      rfl

end Forgetting

end LoopNest
