import CodeTest.Foundations.LittleEndian

/-!
# Doubles as they are stored

A double by its fields, its eight bytes in memory, and the rational number that it stands for when
it is finite. `ofInt` is the double of an integer that has one.
-/

namespace CodeTest

structure Binary64 where
  negative : Bool
  exponent : Fin 2048
  fraction : Fin (2 ^ 52)
deriving DecidableEq

namespace Binary64

def bits (d : Binary64) : ℕ :=
  (if d.negative then 2 ^ 63 else 0) + d.exponent.val * 2 ^ 52 + d.fraction.val

def ofBits (n : ℕ) : Binary64 where
  negative := n / 2 ^ 63 % 2 = 1
  exponent := Fin.ofNat _ (n / 2 ^ 52)
  fraction := Fin.ofNat _ n

theorem bits_lt (d : Binary64) : d.bits < 2 ^ 64 := by
  have he := d.exponent.isLt
  have hf := d.fraction.isLt
  unfold bits
  split_ifs <;> omega

@[simp] theorem ofBits_bits (d : Binary64) : ofBits d.bits = d := by
  obtain ⟨s, ⟨e, he⟩, ⟨f, hf⟩⟩ := d
  simp only [ofBits, bits, mk.injEq, Fin.ext_iff, Fin.val_ofNat]
  cases s <;> simp only [Bool.false_eq_true, if_true, if_false, decide_eq_true_eq,
    decide_eq_false_iff_not] <;> omega

/-- The bytes in memory. -/
def bytes (d : Binary64) : List UInt8 := littleEndian 8 d.bits

def ofBytes (bs : List UInt8) : Binary64 := ofBits (ofLittleEndian bs)

@[simp] theorem length_bytes (d : Binary64) : d.bytes.length = 8 := length_littleEndian 8 d.bits

@[simp] theorem ofBytes_bytes (d : Binary64) : ofBytes d.bytes = d := by
  have hlt : d.bits < 256 ^ 8 := d.bits_lt
  rw [ofBytes, bytes, ofLittleEndian_littleEndian, Nat.mod_eq_of_lt hlt, ofBits_bits]

/-- Neither infinite nor NaN. -/
def Finite (d : Binary64) : Prop := d.exponent ≠ 2047

instance (d : Binary64) : Decidable d.Finite := inferInstanceAs (Decidable (d.exponent ≠ 2047))

/-- The significand as an integer. -/
def significand (d : Binary64) : ℕ :=
  if d.exponent = 0 then d.fraction.val else 2 ^ 52 + d.fraction.val

/-- The exponent of the significand is `scale - 1075`. -/
def scale (d : Binary64) : ℕ := max d.exponent.val 1

/-- The number that a finite double stands for. -/
def value (d : Binary64) : ℚ :=
  (if d.negative then -1 else 1) * ((d.significand * 2 ^ (d.scale - 1075) : ℕ) : ℚ) /
    ((2 ^ (1075 - d.scale) : ℕ) : ℚ)

/-- The double of an integer of at most 53 bits. -/
def ofInt (n : ℤ) : Binary64 :=
  if n = 0 then ⟨false, 0, 0⟩
  else
    { negative := n < 0
      exponent := Fin.ofNat _ (1023 + n.natAbs.log2)
      fraction := Fin.ofNat _ (n.natAbs * 2 ^ (52 - n.natAbs.log2) - 2 ^ 52) }

theorem finite_ofInt {n : ℤ} (h : n.natAbs < 2 ^ 53) : (ofInt n).Finite := by
  by_cases hn : n = 0
  · rw [ofInt, if_pos hn]
    exact show (0 : Fin 2048) ≠ 2047 by decide
  · have hlog : n.natAbs.log2 < 53 := (Nat.log2_lt (Int.natAbs_ne_zero.mpr hn)).mpr h
    rw [ofInt, if_neg hn, Finite, ne_eq, Fin.ext_iff, Fin.val_ofNat]
    show ¬ (1023 + n.natAbs.log2) % 2048 = 2047
    omega

theorem value_ofInt {n : ℤ} (h : n.natAbs < 2 ^ 53) : (ofInt n).value = n := by
  by_cases hn : n = 0
  · have hsig : (ofInt 0).significand = 0 := rfl
    rw [hn, value, hsig, Nat.zero_mul, Nat.cast_zero, mul_zero, zero_div, Int.cast_zero]
  set a := n.natAbs with ha
  have ha₀ : a ≠ 0 := Int.natAbs_ne_zero.mpr hn
  set k := a.log2 with hk
  have hlog : k < 53 := (Nat.log2_lt ha₀).mpr h
  have hlow : 2 ^ k ≤ a := Nat.log2_self_le ha₀
  have hhigh : a < 2 ^ (k + 1) := Nat.lt_log2_self
  have hpow : 2 ^ k * 2 ^ (52 - k) = 2 ^ 52 := by
    rw [← Nat.pow_add, Nat.add_sub_cancel' (by omega)]
  have hge : 2 ^ 52 ≤ a * 2 ^ (52 - k) := hpow ▸ Nat.mul_le_mul_right _ hlow
  have hlt : a * 2 ^ (52 - k) < 2 ^ 53 := by
    have hpow' : 2 ^ (k + 1) * 2 ^ (52 - k) = 2 ^ 53 := by
      rw [← Nat.pow_add]
      congr 1
      omega
    exact hpow' ▸ Nat.mul_lt_mul_of_pos_right hhigh (Nat.two_pow_pos _)
  have hexp : (ofInt n).exponent.val = 1023 + k := by
    rw [ofInt, if_neg hn]
    exact Nat.mod_eq_of_lt (show 1023 + k < 2048 by omega)
  have hfrac : (ofInt n).fraction.val = a * 2 ^ (52 - k) - 2 ^ 52 := by
    rw [ofInt, if_neg hn]
    exact Nat.mod_eq_of_lt (show a * 2 ^ (52 - k) - 2 ^ 52 < 2 ^ 52 by omega)
  have hsig : (ofInt n).significand = a * 2 ^ (52 - k) := by
    rw [significand, if_neg (by rw [Fin.ext_iff, hexp]; simp), hfrac]
    omega
  have hscale : (ofInt n).scale = 1023 + k := by rw [scale, hexp]; omega
  have hpos : ((2 ^ (52 - k) : ℕ) : ℚ) ≠ 0 := by positivity
  rw [value, hsig, hscale, show 1023 + k - 1075 = 0 by omega,
    show 1075 - (1023 + k) = 52 - k by omega,
    Nat.pow_zero, Nat.mul_one, Nat.cast_mul, ← mul_assoc, mul_div_assoc, div_self hpos, mul_one]
  have hneg : (ofInt n).negative = decide (n < 0) := by rw [ofInt, if_neg hn]
  rw [hneg]
  by_cases hlt₀ : n < 0
  · rw [decide_eq_true hlt₀, if_pos rfl, ha]
    have : ((n.natAbs : ℤ) : ℚ) = -(n : ℚ) := by
      rw [Int.ofNat_natAbs_of_nonpos hlt₀.le]
      push_cast
      rfl
    rw [← Int.cast_natCast, this]
    ring
  · rw [decide_eq_false hlt₀, if_neg Bool.false_ne_true, one_mul, ha]
    have : ((n.natAbs : ℤ) : ℚ) = (n : ℚ) := by rw [Int.natAbs_of_nonneg (not_lt.mp hlt₀)]
    rw [← Int.cast_natCast, this]

end Binary64

end CodeTest
