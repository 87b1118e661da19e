/-
# Sixty-four bit words

Index values are machine words: signed integers of sixty-four bits. The library
computes with unbounded integers and says explicitly where the width of a word
matters. `wrap` is the residue that fixed-width arithmetic keeps, and the
operations ending in a question mark are undefined when a word cannot hold what
they compute on the way.

Division rounds toward negative infinity. The remainder is found by multiplying
the quotient back and subtracting, so it is undefined not only for a zero
divisor but also when that product leaves the word.
-/

namespace LoopNest.Word

/-- The least value a word holds. -/
def least : Int := -9223372036854775808

/-- The greatest value a word holds. -/
def greatest : Int := 9223372036854775807

/-- Whether a word can hold `value`. -/
def fits (value : Int) : Bool :=
  decide (least ≤ value) && decide (value ≤ greatest)

/-- The word that agrees with `value` modulo two to the sixty-fourth. -/
def wrap (value : Int) : Int :=
  value.bmod 18446744073709551616

/-- Membership in the words as a pair of inequalities. -/
theorem fits_iff {value : Int} : fits value = true ↔ least ≤ value ∧ value ≤ greatest := by
  simp [fits]

/-- Wrapping yields a word. -/
theorem fits_wrap (value : Int) : fits (wrap value) = true := by
  rw [fits_iff, wrap, Int.bmod_def, least, greatest]
  split <;> omega

/-- Wrapping leaves a word as it is. -/
theorem wrap_of_fits {value : Int} (h : fits value = true) : wrap value = value := by
  rw [fits_iff, least, greatest] at h
  rw [wrap, Int.bmod_def]
  split <;> omega

/-- Keep a value only when a word can hold it. -/
def check (value : Int) : Option Int :=
  if fits value then some value else none

/-- A value that is kept is unchanged. -/
theorem check_eq_some_iff {value result : Int} :
    check value = some result ↔ fits value = true ∧ value = result := by
  simp [check]

/-- Negation, undefined at the least word, whose opposite does not fit. -/
def negate? (value : Int) : Option Int :=
  check (-value)

/-- Multiplication, undefined when the product does not fit. -/
def mul? (left right : Int) : Option Int :=
  check (left * right)

/-- The quotient rounded toward negative infinity, undefined for a zero divisor
and when the quotient does not fit. -/
def floorDiv? (dividend divisor : Int) : Option Int :=
  if divisor = 0 then none else check (dividend.fdiv divisor)

/-- What remains of the dividend once the floored quotient is multiplied back.
It has the sign of the divisor. It is undefined wherever the quotient is, and
also when the product does not fit, although the remainder itself would. -/
def floorMod? (dividend divisor : Int) : Option Int := do
  let quotient ← floorDiv? dividend divisor
  let product ← mul? quotient divisor
  check (dividend - product)

end LoopNest.Word
