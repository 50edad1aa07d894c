import Mathlib.Data.Nat.Size
import Mathlib.Tactic

/-!
# Doubles that are not negative

The numbers of Lua, as far as they are used for ids: a double that is a multiple of 2⁻⁶³ is the
natural number of these units. A sum is rounded to 53 significant bits, to the nearest and to even
when there are two.
-/

namespace CodeTest

/-- A double that is a multiple of 2⁻⁶³, in these units. -/
abbrev Double := ℕ

namespace Double

/-- A natural number as a double. It is exact below 2⁵³. -/
def ofNat (n : ℕ) : Double := n * 2 ^ 63

/-- Rounding to 53 significant bits. -/
def round (n : ℕ) : Double :=
  let s := n.size - 53
  let q := n / 2 ^ s
  let r := n % 2 ^ s
  let up := 2 ^ s < 2 * r ∨ 2 ^ s = 2 * r ∧ q % 2 = 1
  if up then (q + 1) * 2 ^ s else q * 2 ^ s

def add (a b : Double) : Double := round (a + b)

example : round (2 ^ 63 + 2 ^ 32 + 1) = 2 ^ 63 + 2 ^ 32 := by decide +kernel

end Double

end CodeTest
