/-
# Maps keyed by iteration variables are finite maps

A map is a list of slots. It grows when a variable past its end gets a value, and it
keeps the slots that it has emptied, so maps with the same values may have different
slots. None of this can be told from outside. A program that starts from a map without
values and makes any calls gets the answers that a finite map gives to the same calls,
and the map it ends with is read, counted and listed as that finite map. The finite map
is Mathlib's, which has no slots and no order.

The simulation relates the two by what `get?` reads and by nothing else, so a call only
has to be followed through reading. That reading decides the count, the test for
emptiness and the listing is proved once, at the end of a run.
-/

import Mathlib.Data.Finmap
import LoopNest.Proofs.Stage.IterMap

namespace LoopNest.IterMap

variable {α : Type}

/-- A finite map from iteration variables, known by what it looks up. -/
abbrev FiniteMap (α : Type) := Finmap fun _ : IterId => α

/-- A finite map with further entries; a later one replaces an earlier one. -/
def FiniteMap.insertAll (finite : FiniteMap α) (entries : List (IterId × α)) : FiniteMap α :=
  entries.foldl (fun built entry => built.insert entry.1 entry.2) finite

/-- A call that makes, reads or changes the map a program holds. -/
inductive Call (α : Type)
  /-- Start over without values; how much room is set aside plays no part. -/
  | new
  /-- Give a variable a value. -/
  | insert (id : IterId) (value : α)
  /-- Take the value from a variable. -/
  | remove (id : IterId)
  /-- Reach for the value of a variable and overwrite it, where there is one. -/
  | write (id : IterId) (change : α → α)
  /-- Start over from a list of entries, in which a variable may be repeated. -/
  | collect (entries : List (IterId × α))

namespace Call

/-- Make a call on slots. The answer is the value the variable had before. -/
def onSlots (call : Call α) (map : IterMap α) : Option α × IterMap α :=
  match call with
  | new => (none, empty)
  | insert id value => map.exchange id value
  | remove id => map.take id
  | write id change => (map.get? id, map.modify id change)
  | collect entries => (none, ofList entries)

/-- Make a call on a finite map, with the same answer. -/
def onFinite (call : Call α) (finite : FiniteMap α) : Option α × FiniteMap α :=
  match call with
  | new => (none, ∅)
  | insert id value => (finite.lookup id, finite.insert id value)
  | remove id => finite.extract id
  | write id change =>
      match finite.lookup id with
      | some value => (some value, finite.insert id (change value))
      | none => (none, finite)
  | collect entries => (none, FiniteMap.insertAll ∅ entries)

/-- Make one call after the other and keep the answers. -/
def replay {State : Type} (make : Call α → State → Option α × State) :
    List (Call α) → State → List (Option α) × State
  | [], state => ([], state)
  | call :: calls, state =>
      let (answer, next) := make call state
      let (answers, last) := replay make calls next
      (answer :: answers, last)

end Call

/-- A map and a finite map with the same value for every variable, whether it has a
slot or not. -/
def Represents (map : IterMap α) (finite : FiniteMap α) : Prop :=
  ∀ id, map.get? id = finite.lookup id

/-- Changing a value changes what is read from its variable and nothing else. -/
theorem get?_modify (map : IterMap α) (id other : IterId) (change : α → α) :
    (map.modify id change).get? other =
      if other = id then (map.get? id).map change else map.get? other := by
  cases id
  cases other
  simp only [get?, modify, List.getElem?_modify, IterId.mk.injEq]
  grind

namespace Represents

variable {map : IterMap α} {finite : FiniteMap α}

/-- Without values, nothing is read on either side. -/
theorem empty : (IterMap.empty : IterMap α).Represents ∅ := by
  intro id
  rw [get?_empty, Finmap.lookup_empty]

/-- An inserted value is the same on both sides. -/
theorem insert (h : map.Represents finite) (id : IterId) (value : α) :
    (map.insert id value).Represents (finite.insert id value) := by
  intro other
  rw [get?_insert]
  by_cases hother : other = id
  · rw [if_pos hother, hother, Finmap.lookup_insert]
  · rw [if_neg hother, Finmap.lookup_insert_of_ne _ hother]
    exact h other

/-- A value is gone from both sides, and no other one is. -/
theorem erase (h : map.Represents finite) (id : IterId) :
    (map.erase id).Represents (finite.erase id) := by
  intro other
  rw [get?_erase]
  by_cases hother : other = id
  · rw [if_pos hother, hother, Finmap.lookup_erase]
  · rw [if_neg hother, Finmap.lookup_erase_ne hother]
    exact h other

/-- Entries that are inserted one after the other are the same on both sides. The
induction is on the entries, for all maps, as each insertion goes on from another map. -/
theorem insertAll (h : map.Represents finite) (entries : List (IterId × α)) :
    (map.insertAll entries).Represents (FiniteMap.insertAll finite entries) := by
  induction entries generalizing map finite with
  | nil => exact h
  | cons entry entries ih => exact ih (h.insert entry.1 entry.2)

/-- A value that is overwritten where it stands is inserted anew. -/
theorem modify_of_some (h : map.Represents finite) {id : IterId} {value : α}
    (hvalue : finite.lookup id = some value) (change : α → α) :
    (map.modify id change).Represents (finite.insert id (change value)) := by
  intro other
  rw [get?_modify]
  by_cases hother : other = id
  · rw [if_pos hother, h id, hvalue, hother, Finmap.lookup_insert, Option.map_some]
  · rw [if_neg hother, Finmap.lookup_insert_of_ne _ hother]
    exact h other

/-- Where there is no value, nothing is overwritten. -/
theorem modify_of_none (h : map.Represents finite) {id : IterId}
    (hvalue : finite.lookup id = none) (change : α → α) :
    (map.modify id change).Represents finite := by
  intro other
  rw [get?_modify]
  by_cases hother : other = id
  · rw [if_pos hother, h id, hother, hvalue, Option.map_none]
  · rw [if_neg hother]
    exact h other

/-- A call has the same answer on both sides and leaves the same values. -/
theorem step (h : map.Represents finite) (call : Call α) :
    (call.onSlots map).1 = (call.onFinite finite).1 ∧
      (call.onSlots map).2.Represents (call.onFinite finite).2 := by
  cases call with
  | new => exact ⟨rfl, empty⟩
  | insert id value => exact ⟨h id, h.insert id value⟩
  | remove id =>
      rw [Call.onFinite, Finmap.extract_eq_lookup_erase]
      exact ⟨h id, h.erase id⟩
  | write id change =>
      cases hvalue : finite.lookup id with
      | none =>
          simp only [Call.onSlots, Call.onFinite, hvalue]
          exact ⟨(h id).trans hvalue, h.modify_of_none hvalue change⟩
      | some value =>
          simp only [Call.onSlots, Call.onFinite, hvalue]
          exact ⟨(h id).trans hvalue, h.modify_of_some hvalue change⟩
  | collect entries => exact ⟨rfl, empty.insertAll entries⟩

/-- Any number of calls have the same answers on both sides and leave the same values. -/
theorem replay (h : map.Represents finite) (calls : List (Call α)) :
    (Call.replay Call.onSlots calls map).1 = (Call.replay Call.onFinite calls finite).1 ∧
      (Call.replay Call.onSlots calls map).2.Represents
        (Call.replay Call.onFinite calls finite).2 := by
  induction calls generalizing map finite with
  | nil => exact ⟨rfl, h⟩
  | cons call calls ih =>
      obtain ⟨hanswer, hnext⟩ := h.step call
      obtain ⟨hanswers, hlast⟩ := ih hnext
      simp only [Call.replay]
      exact ⟨by rw [hanswer, hanswers], hlast⟩

end Represents

/-- Everything that can be observed of a map is what a finite map says. -/
structure ObservedAs (map : IterMap α) (finite : FiniteMap α) : Prop where
  /-- Every variable is read, also one that is past the end of the slots. -/
  get? : ∀ id, map.get? id = finite.lookup id
  /-- A variable has a value where it is bound. -/
  contains : ∀ id, map.contains id = true ↔ id ∈ finite
  /-- A variable that is not bound reads as the default. -/
  getDefault : ∀ [Inhabited α] id, map.getDefault id = (finite.lookup id).getD default
  /-- The size is the number of variables that are bound. -/
  size : map.size = finite.keys.card
  /-- Emptied slots do not make a map anything but empty. -/
  isEmpty : map.isEmpty = true ↔ finite = ∅
  /-- Exactly the bindings are listed. -/
  mem_toList : ∀ id value, (id, value) ∈ map.toList ↔ finite.lookup id = some value
  /-- They are listed in strictly ascending order of their variables. -/
  ascending : map.toList.Pairwise fun first second => first.1.index < second.1.index

/-- A map from which nothing is read has empty slots only. -/
theorem isEmpty_of_get?_eq_none {map : IterMap α} (h : ∀ id, map.get? id = none) :
    map.isEmpty = true := by
  rw [isEmpty, List.all_eq_true]
  intro slot hslot
  obtain ⟨index, hindex⟩ := List.getElem?_of_mem hslot
  have hnone := h ⟨index⟩
  rw [get?, hindex, Option.join_some] at hnone
  rw [hnone, Option.isNone_none]

/-- As many entries are listed as are counted. -/
theorem length_toList (map : IterMap α) : map.toList.length = map.size := by
  rw [toList, List.length_filterMap_eq_countP, size]
  conv_rhs => rw [← List.zipIdx_map_fst 0 map.slots, List.countP_map]
  congr 1
  funext entry
  obtain ⟨slot, index⟩ := entry
  exact Option.isSome_map

/-- Maps that are read alike are listed alike. A strictly ascending list is determined
by its members. -/
theorem toList_congr {first second : IterMap α} (h : ∀ id, first.get? id = second.get? id) :
    first.toList = second.toList := by
  have hperm : first.toList.Perm second.toList := by
    apply (List.perm_ext_iff_of_nodup first.nodup_keys.of_map second.nodup_keys.of_map).mpr
    rintro ⟨id, value⟩
    rw [mem_toList, mem_toList, h id]
  apply List.Perm.eq_of_pairwise ?_ first.ascending_toList second.ascending_toList hperm
  intro entry entry' _ _ hlt hlt'
  exact absurd hlt (Nat.lt_asymm hlt')

/-- The entries are the variables that are listed, each with the value read from it. -/
theorem toList_eq_filterMap_keys (map : IterMap α) :
    map.toList = map.keys.filterMap fun id => (map.get? id).map fun value => (id, value) := by
  have hread : ∀ entry ∈ map.toList,
      ((map.get? entry.1).map fun value => (entry.1, value)) = some entry := by
    rintro ⟨id, value⟩ hentry
    rw [mem_toList.mp hentry, Option.map_some]
  rw [keys, List.filterMap_map]
  exact ((List.filterMap_congr hread).trans List.filterMap_some).symm

/-- A map that is made from the entries of another one is read alike. -/
theorem get?_ofList_toList (map : IterMap α) (id : IterId) :
    (ofList map.toList).get? id = map.get? id := by
  rw [toList_eq_filterMap_keys, get?_ofList_filterMap]
  by_cases hlisted : id ∈ map.keys
  · rw [if_pos hlisted]
  · rw [if_neg hlisted, eq_comm, Option.eq_none_iff_forall_ne_some]
    intro value hvalue
    exact hlisted (List.mem_map_of_mem (mem_toList.mpr hvalue))

namespace Represents

variable {map : IterMap α} {finite : FiniteMap α}

/-- A variable is listed where it is bound. -/
theorem mem_keys (h : map.Represents finite) (id : IterId) : id ∈ map.keys ↔ id ∈ finite := by
  simp only [keys, List.mem_map, Prod.exists, exists_and_right, exists_eq_right,
    IterMap.mem_toList, h id, Finmap.mem_iff]

/-- What is read from a map decides everything else that can be observed of it. -/
theorem observedAs (h : map.Represents finite) : map.ObservedAs finite := by
  constructor
  case get? => exact h
  case contains =>
    intro id
    rw [contains, h id, Finmap.lookup_isSome]
  case getDefault =>
    intro _ id
    rw [getDefault, h id]
  case size =>
    have hkeys : finite.keys = map.keys.toFinset := by
      ext id
      rw [Finmap.mem_keys, List.mem_toFinset, h.mem_keys]
    rw [hkeys, List.toFinset_card_of_nodup map.nodup_keys, keys, List.length_map, length_toList]
  case isEmpty =>
    constructor
    · intro hempty
      apply Finmap.ext_lookup
      intro id
      rw [← h id, get?_eq_none_of_isEmpty hempty, Finmap.lookup_empty]
    · rintro rfl
      exact isEmpty_of_get?_eq_none fun id => (h id).trans (Finmap.lookup_empty id)
  case mem_toList =>
    intro id value
    rw [IterMap.mem_toList, h id]
  case ascending => exact map.ascending_toList

end Represents

/-- Any calls, made on slots and on a finite map that both start without values, are
answered alike and end with a map that is observed as the finite map. The entries it
lists make a map that is observed as the same finite map and lists the same entries. -/
theorem replay_observedAs (calls : List (Call α)) :
    let (answers, map) := Call.replay Call.onSlots calls empty
    let (expected, finite) := Call.replay Call.onFinite calls ∅
    answers = expected ∧ map.ObservedAs finite ∧
      (ofList map.toList).ObservedAs finite ∧ (ofList map.toList).toList = map.toList := by
  obtain ⟨hanswers, hlast⟩ := Represents.empty.replay calls
  have hcollected : (ofList (Call.replay Call.onSlots calls empty).2.toList).Represents
      (Call.replay Call.onFinite calls ∅).2 :=
    fun id => (get?_ofList_toList _ id).trans (hlast id)
  exact ⟨hanswers, hlast.observedAs, hcollected.observedAs, toList_congr (get?_ofList_toList _)⟩

end LoopNest.IterMap
