import Mathlib.Data.Int.Notation
import Mathlib.Data.List.Basic
import Mathlib.Tactic

/-!
# Strings of Lua

A Lua string is the list of its bytes, and positions count from 1. The library functions here are
what the modules of this folder use of it, for positions from 1 on.
-/

namespace CodeTest.Text

/-- A Lua string. -/
abbrev LuaString := List UInt8

/-- The errors that the functions of these modules raise: a comparison with nil, and a bad argument
of a library function. -/
inductive LuaError
  | compareNil
  | badArgument (n : ℕ) (function : String)
  deriving DecidableEq

/-- `string.byte(s, i)`, for a position from 1 on. -/
def stringByte (s : LuaString) (i : ℕ) : Option ℤ :=
  if i = 0 then none else s[i - 1]?.map fun b => (b.toNat : ℤ)

/-- `string.sub(s, i, j)`, for a position `i` from 1 on. -/
def stringSub (s : LuaString) (i j : ℕ) : LuaString := (s.drop (i - 1)).take (j + 1 - i)

/-- `string.sub(s, -n)`. -/
def stringEnd (s : LuaString) (n : ℕ) : LuaString := s.drop (s.length - n)

/-- The order of the bytes of two strings, by which Lua compares them in the C locale. -/
def bytes (s : LuaString) : List ℕ := s.map UInt8.toNat

theorem bytes_injective {s t : LuaString} (h : bytes s = bytes t) : s = t :=
  List.map_injective_iff.mpr (fun _ _ => UInt8.toNat_inj.mp) h

/-- A numeral of decimal digits. -/
def decimalNumeral (s : LuaString) : Option ℕ :=
  if s ≠ [] ∧ s.all fun b => 0x30 ≤ b ∧ b ≤ 0x39 then
    some (s.foldl (fun x b => 10 * x + (b.toNat - 0x30)) 0)
  else
    none

/-- The decimal digits of a number. -/
def decimalText (n : ℕ) : LuaString := (Nat.toDigits 10 n).map fun c => c.val.toUInt8

theorem stringByte_one (b : UInt8) (s : LuaString) :
    stringByte (b :: s) 1 = some (b.toNat : ℤ) := rfl

/-- The byte behind `done`. -/
theorem stringByte_append (done s : LuaString) :
    stringByte (done ++ s) (done.length + 1) = s.head?.map fun b => (b.toNat : ℤ) := by
  rw [stringByte, if_neg (Nat.succ_ne_zero _), Nat.add_sub_cancel,
    List.getElem?_append_right (Nat.le_refl _), Nat.sub_self, List.head?_eq_getElem?]

/-- The part of `n` bytes behind `done`. -/
theorem stringSub_append (done s : LuaString) (n : ℕ) :
    stringSub (done ++ s) (done.length + 1) (done.length + n) = s.take n := by
  rw [stringSub, Nat.add_sub_cancel, List.drop_left, Nat.add_right_comm, Nat.add_sub_cancel_left]

end CodeTest.Text
