/-
# Maps keyed by iteration variables

What is known about iteration variables is kept in a list of slots, one for each
position. A position without a value has an empty slot or lies past the end.
Inserting extends the list as far as needed; erasing empties a slot and never
shortens the list. Two maps are equal when their slots are, so an emptied slot at
the end still tells maps apart that hold the same values.
-/

import LoopNest.Stage.IterVar

namespace LoopNest

/-- A finite map from iteration variables. -/
structure IterMap (α : Type) where
  slots : List (Option α)
  deriving DecidableEq, Repr

namespace IterMap

variable {α : Type}

/-- The map without values. -/
def empty : IterMap α := ⟨[]⟩

instance : Inhabited (IterMap α) := ⟨empty⟩

/-- The value at an iteration variable. -/
def get? (map : IterMap α) (id : IterId) : Option α :=
  (map.slots[id.index]?).join

/-- Whether there is a value at an iteration variable. -/
def contains (map : IterMap α) (id : IterId) : Bool :=
  (map.get? id).isSome

/-- The value at an iteration variable, or the default of the type. -/
def getDefault [Inhabited α] (map : IterMap α) (id : IterId) : α :=
  (map.get? id).getD default

/-- Fill one slot, appending empty slots before it where the list is too short. -/
def fillSlot (value : α) : Nat → List (Option α) → List (Option α)
  | 0, [] => [some value]
  | 0, _ :: rest => some value :: rest
  | n + 1, [] => none :: fillSlot value n []
  | n + 1, slot :: rest => slot :: fillSlot value n rest

/-- Give an iteration variable a value, in place of any it had. -/
def insert (map : IterMap α) (id : IterId) (value : α) : IterMap α :=
  ⟨fillSlot value id.index map.slots⟩

/-- Take the value from an iteration variable. -/
def erase (map : IterMap α) (id : IterId) : IterMap α :=
  ⟨map.slots.set id.index none⟩

/-- The empty map has no values. -/
@[simp] theorem get?_empty (id : IterId) : (empty : IterMap α).get? id = none := rfl

/-- Filling a slot changes what is read from it and nothing else. -/
theorem join_getElem?_fillSlot (value : α) (n m : Nat) (slots : List (Option α)) :
    ((fillSlot value n slots)[m]?).join = if m = n then some value else (slots[m]?).join := by
  fun_induction fillSlot value n slots generalizing m with
  | case1 => cases m <;> simp
  | case2 => cases m <;> simp
  | case3 n ih => cases m <;> simp [ih]
  | case4 n slot rest ih => cases m <;> simp [ih]

/-- An inserted value is read back, and every other variable keeps its value. -/
theorem get?_insert (map : IterMap α) (id other : IterId) (value : α) :
    (map.insert id value).get? other = if other = id then some value else map.get? other := by
  cases id
  cases other
  simp only [get?, insert, join_getElem?_fillSlot, IterId.mk.injEq]

/-- An erased value is gone, and every other variable keeps its value. -/
theorem get?_erase (map : IterMap α) (id other : IterId) :
    (map.erase id).get? other = if other = id then none else map.get? other := by
  cases id
  cases other
  simp only [get?, erase, List.getElem?_set, IterId.mk.injEq]
  grind

/-- Insert a value and return the one it replaces. -/
def exchange (map : IterMap α) (id : IterId) (value : α) : Option α × IterMap α :=
  (map.get? id, map.insert id value)

/-- Erase a value and return it. -/
def take (map : IterMap α) (id : IterId) : Option α × IterMap α :=
  (map.get? id, map.erase id)

/-- Change the value at an iteration variable, where there is one. -/
def modify (map : IterMap α) (id : IterId) (change : α → α) : IterMap α :=
  ⟨map.slots.modify id.index (Option.map change)⟩

/-- Insert values one after the other; a later one replaces an earlier one. -/
def insertAll (map : IterMap α) (entries : List (IterId × α)) : IterMap α :=
  entries.foldl (fun built entry => built.insert entry.1 entry.2) map

/-- The map of a list of entries. -/
def ofList (entries : List (IterId × α)) : IterMap α :=
  empty.insertAll entries

/-- The entries in ascending order of position. -/
def toList (map : IterMap α) : List (IterId × α) :=
  map.slots.zipIdx.filterMap fun (slot, index) => slot.map fun value => (⟨index⟩, value)

/-- The iteration variables that have a value, in ascending order. -/
def keys (map : IterMap α) : List IterId :=
  map.toList.map Prod.fst

/-- The values in the order of their iteration variables. -/
def values (map : IterMap α) : List α :=
  map.toList.map Prod.snd

/-- The number of values. -/
def size (map : IterMap α) : Nat :=
  map.slots.countP Option.isSome

/-- Whether there is no value. -/
def isEmpty (map : IterMap α) : Bool :=
  map.slots.all Option.isNone

/-- Apply a function to every value. -/
def map {β : Type} (m : IterMap α) (f : α → β) : IterMap β :=
  ⟨m.slots.map (Option.map f)⟩

/-- Mapping acts on each value in its place. -/
@[simp] theorem get?_map {β : Type} (m : IterMap α) (f : α → β) (id : IterId) :
    (m.map f).get? id = (m.get? id).map f := by
  simp only [get?, map, List.getElem?_map]
  cases m.slots[id.index]? <;> rfl

end IterMap

end LoopNest
