/-
# Reading maps keyed by iteration variables

A map is read through `get?`. Listing a map loses nothing that can be read, and a
map that is made from a list gives every listed variable its value.
-/

import LoopNest.Stage.IterMap

namespace LoopNest.IterMap

variable {α : Type}

/-- Inserting a value for each variable of a list that a function gives one. -/
theorem get?_insertAll_filterMap (map : IterMap α) (ids : List IterId) (value : IterId → Option α)
    (id : IterId) :
    (map.insertAll (ids.filterMap fun id => (value id).map fun x => (id, x))).get? id =
      if id ∈ ids ∧ (value id).isSome then value id else map.get? id := by
  induction ids generalizing map with
  | nil => simp [insertAll]
  | cons first rest ih =>
      cases hvalue : value first with
      | none =>
          simp only [List.filterMap_cons, hvalue, Option.map_none, ih]
          by_cases hfirst : id = first <;> simp [hfirst, hvalue]
      | some x =>
          simp only [List.filterMap_cons, hvalue, Option.map_some]
          rw [insertAll, List.foldl_cons, ← insertAll, ih, get?_insert]
          by_cases hfirst : id = first <;> simp [hfirst, hvalue]

/-- The map of a list of variables that get their values from a function. -/
theorem get?_ofList_filterMap (ids : List IterId) (value : IterId → Option α) (id : IterId) :
    (ofList (ids.filterMap fun id => (value id).map fun x => (id, x))).get? id =
      if id ∈ ids then value id else none := by
  rw [ofList, get?_insertAll_filterMap]
  cases hvalue : value id <;> simp

/-- The map of a list of variables, each with a value that a function gives. -/
theorem get?_ofList_map (ids : List IterId) (value : IterId → α) (id : IterId) :
    (ofList (ids.map fun id => (id, value id))).get? id =
      if id ∈ ids then some (value id) else none := by
  rw [← get?_ofList_filterMap ids fun id => some (value id)]
  simp

/-- The entries of a map are what can be read from it. -/
theorem mem_toList {map : IterMap α} {id : IterId} {value : α} :
    (id, value) ∈ map.toList ↔ map.get? id = some value := by
  obtain ⟨index⟩ := id
  simp only [toList, List.mem_filterMap, Prod.exists, List.mem_zipIdx_iff_getElem?,
    Option.map_eq_some_iff, Prod.mk.injEq, IterId.mk.injEq, get?]
  constructor
  · rintro ⟨slot, position, hslot, found, rfl, rfl, rfl⟩
    rw [hslot, Option.join_some]
  · intro h
    exact ⟨some value, index, Option.join_eq_some_iff.mp h, value, rfl, rfl, rfl⟩

/-- The entries stand in strictly ascending order of their variables. -/
theorem ascending_toList (map : IterMap α) :
    map.toList.Pairwise fun first second => first.1.index < second.1.index := by
  have hpositions : map.slots.zipIdx.Pairwise fun first second => first.2 < second.2 := by
    rw [← List.pairwise_map (f := Prod.snd) (R := (· < ·)), List.zipIdx_map_snd]
    exact List.pairwise_lt_range'
  rw [toList]
  refine hpositions.filterMap _ fun first second hlt entry hentry entry' hentry' => ?_
  obtain ⟨value, -, rfl⟩ := Option.map_eq_some_iff.mp hentry
  obtain ⟨value', -, rfl⟩ := Option.map_eq_some_iff.mp hentry'
  exact hlt

/-- No variable is listed twice. -/
theorem nodup_keys (map : IterMap α) : map.keys.Nodup := by
  rw [keys, List.Nodup, List.pairwise_map]
  apply map.ascending_toList.imp
  intro first second hlt hsame
  rw [hsame] at hlt
  exact Nat.lt_irrefl _ hlt

/-- Nothing is read from a map without values. -/
theorem get?_eq_none_of_isEmpty {map : IterMap α} (h : map.isEmpty = true) (id : IterId) :
    map.get? id = none := by
  rw [isEmpty, List.all_eq_true] at h
  cases hget : map.get? id with
  | none => rfl
  | some value => simpa using h _ (List.mem_of_getElem? (Option.join_eq_some_iff.mp hget))

end LoopNest.IterMap
