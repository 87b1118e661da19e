/-
# Scalar types of index expressions

Every loop index and every index expression has one of ten scalar types. The
width and the signedness of a type matter in two places: they bound the values a
variable can take, and they decide how a computed value wraps.

All values live in signed sixty-four bit words, so `uint64` is the type of the
non-negative words. Its values have sixty-three bits and arithmetic on them
drops the sign. `index` is the type of loop counters, as wide as `int64` but
above every other type when operands of different types meet.
-/

import LoopNest.Word

namespace LoopNest

/-- The scalar types, narrower ones first and each signed type just before the
unsigned type of its width. The position of a type in this order is its code. -/
inductive DType
  | bool
  | int8
  | uint8
  | int16
  | uint16
  | int32
  | uint32
  | int64
  | uint64
  | index
  deriving DecidableEq, Repr, Inhabited

namespace DType

/-- Every type, in the order of the codes. -/
def all : List DType :=
  [bool, int8, uint8, int16, uint16, int32, uint32, int64, uint64, index]

/-- The position of a type in `all`. -/
def code : DType → Nat
  | bool => 0
  | int8 => 1
  | uint8 => 2
  | int16 => 3
  | uint16 => 4
  | int32 => 5
  | uint32 => 6
  | int64 => 7
  | uint64 => 8
  | index => 9

/-- The type with a given code, if there is one. -/
def ofCode? (code : Int) : Option DType :=
  all.find? fun dtype => decide ((dtype.code : Int) = code)

/-- The bytes that a stored value takes. -/
def bytes : DType → Nat
  | bool | int8 | uint8 => 1
  | int16 | uint16 => 2
  | int32 | uint32 => 4
  | int64 | uint64 | index => 8

/-- The significant bits of a value. A boolean has one, though it is stored in a byte. -/
def bits : DType → Nat
  | bool => 1
  | dtype => dtype.bytes * 8

/-- Whether this is the type of truth values. -/
def isBool (dtype : DType) : Bool :=
  dtype = bool

/-- Whether the type has negative values. -/
def isSigned : DType → Bool
  | int8 | int16 | int32 | int64 | index => true
  | _ => false

/-- Whether this is an integer type without negative values. -/
def isUnsigned : DType → Bool
  | uint8 | uint16 | uint32 | uint64 => true
  | _ => false

/-- Whether this is an integer type, signed or not. -/
def isInteger (dtype : DType) : Bool :=
  dtype.isSigned || dtype.isUnsigned

/-- The least value of a type. -/
def minValue : DType → Int
  | int8 => -128
  | int16 => -32768
  | int32 => -2147483648
  | int64 | index => Word.least
  | bool | uint8 | uint16 | uint32 | uint64 => 0

/-- The greatest value of a type. A `uint64` is a non-negative word, so it ends
where the signed words end. -/
def maxValue : DType → Int
  | bool => 1
  | int8 => 127
  | uint8 => 255
  | int16 => 32767
  | uint16 => 65535
  | int32 => 2147483647
  | uint32 => 4294967295
  | int64 | uint64 | index => Word.greatest

/-- Whether a value belongs to the type. -/
def contains (dtype : DType) (value : Int) : Bool :=
  decide (dtype.minValue ≤ value) && decide (value ≤ dtype.maxValue)

/-- Wrap a value into the type. Integers keep their residue modulo the number of
values of the type, and a boolean keeps whether the value is nonzero. -/
def truncate (dtype : DType) (value : Int) : Int :=
  match dtype with
  | bool => if value = 0 then 0 else 1
  | int8 => value.bmod 256
  | uint8 => value % 256
  | int16 => value.bmod 65536
  | uint16 => value % 65536
  | int32 => value.bmod 4294967296
  | uint32 => value % 4294967296
  | uint64 => value % 9223372036854775808
  | int64 | index => Word.wrap value

/-- Membership in a type as a pair of inequalities. -/
theorem contains_iff {dtype : DType} {value : Int} :
    dtype.contains value = true ↔ dtype.minValue ≤ value ∧ value ≤ dtype.maxValue := by
  simp [contains]

/-- A wrapped value belongs to the type. -/
theorem contains_truncate (dtype : DType) (value : Int) :
    dtype.contains (dtype.truncate value) = true := by
  rw [contains_iff]
  cases dtype <;>
    simp only [truncate, minValue, maxValue, Word.wrap, Word.least, Word.greatest,
      Int.bmod_def] <;>
    grind

/-- Wrapping leaves the values of a type as they are. -/
theorem truncate_of_contains {dtype : DType} {value : Int} (h : dtype.contains value = true) :
    dtype.truncate value = value := by
  rw [contains_iff] at h
  cases dtype <;>
    simp only [truncate, minValue, maxValue, Word.wrap, Word.least, Word.greatest,
      Int.bmod_def] at h ⊢ <;>
    grind

/-- The name a type is written with. -/
def name : DType → String
  | bool => "bool"
  | int8 => "int8"
  | uint8 => "uint8"
  | int16 => "int16"
  | uint16 => "uint16"
  | int32 => "int32"
  | uint32 => "uint32"
  | int64 => "int64"
  | uint64 => "uint64"
  | index => "index"

/-- The type with a given name, if there is one. -/
def ofName? (name : String) : Option DType :=
  all.find? fun dtype => dtype.name == name

end DType

end LoopNest
