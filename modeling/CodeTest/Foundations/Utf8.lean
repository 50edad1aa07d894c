import Mathlib.Data.List.Basic
import Mathlib.Tactic

/-!
# UTF-8 in one to six bytes

The encoding of the numbers below `2 ^ 31` by a leading byte and up to five bytes `10xxxxxx`. The
rows of one to four bytes give, for the Unicode scalar values, the encoding of Lean's own strings
(`encode_toNat`).

A decoder meets an encoding as a leading byte and the groups of six bits behind it, so the rows are
stated in the digits of the number to the base 64 (`group`).
-/

namespace CodeTest.Utf8

/-- The `i`-th group of six bits of a number, from the low end. -/
def group (c i : ℕ) : ℕ := c / 64 ^ i % 64

theorem group_lt (c i : ℕ) : group c i < 64 := Nat.mod_lt _ (by decide)

/-- The byte `10xxxxxx` with the `i`-th group of six bits. -/
def tailByte (c i : ℕ) : UInt8 := .ofNat (0x80 + group c i)

/-- The encoding of a number below `2 ^ 31`. -/
def encode (c : ℕ) : List UInt8 :=
  if c ≤ 0x7F then
    [.ofNat c]
  else if c ≤ 0x7FF then
    [.ofNat (0xC0 + c / 64), tailByte c 0]
  else if c ≤ 0xFFFF then
    [.ofNat (0xE0 + c / 64 ^ 2), tailByte c 1, tailByte c 0]
  else if c ≤ 0x1FFFFF then
    [.ofNat (0xF0 + c / 64 ^ 3), tailByte c 2, tailByte c 1, tailByte c 0]
  else if c ≤ 0x3FFFFFF then
    [.ofNat (0xF8 + c / 64 ^ 4), tailByte c 3, tailByte c 2, tailByte c 1, tailByte c 0]
  else
    [.ofNat (0xFC + c / 64 ^ 5), tailByte c 4, tailByte c 3, tailByte c 2, tailByte c 1,
      tailByte c 0]

theorem tail_lt (c i : ℕ) : 0x80 + group c i < 256 := by
  have := group_lt c i
  omega

@[simp] theorem toNat_tailByte (c i : ℕ) : (tailByte c i).toNat = 0x80 + group c i := by
  have := group_lt c i
  rw [tailByte, UInt8.toNat_ofNat']
  omega

/-- A byte `10xxxxxx`. -/
def IsTail (b : UInt8) : Prop := 0x80 ≤ b.toNat ∧ b.toNat ≤ 0xBF

instance : DecidablePred IsTail := fun b =>
  inferInstanceAs (Decidable (0x80 ≤ b.toNat ∧ b.toNat ≤ 0xBF))

theorem group_mul_add (c : ℕ) {g : ℕ} (hg : g < 64) (i : ℕ) :
    group (c * 64 + g) (i + 1) = group c i := by
  have hupper : (c * 64 + g) / 64 = c := by omega
  rw [group, group, Nat.pow_succ', ← Nat.div_div_eq_div_mul, hupper]

/-- Bytes `10xxxxxx` are the groups of a number whose upper digits are given. -/
theorem exists_tailBytes (m : ℕ) {ts : List UInt8} (hts : ∀ b ∈ ts, IsTail b) :
    ∃ c, c / 64 ^ ts.length = m ∧ ts = (List.range ts.length).reverse.map (tailByte c) := by
  induction ts using List.reverseRecOn with
  | nil => exact ⟨m, Nat.div_one m, rfl⟩
  | append_singleton ts b ih =>
    obtain ⟨c, hm, hgroups⟩ := ih fun b' h => hts b' (List.mem_append_left _ h)
    have hb : IsTail b := hts b (by simp)
    have hlt : b.toNat - 0x80 < 64 := by
      have := hb.2
      omega
    refine ⟨c * 64 + (b.toNat - 0x80), ?_, ?_⟩
    · have hupper : (c * 64 + (b.toNat - 0x80)) / 64 = c := by omega
      rw [List.length_append, List.length_singleton, Nat.pow_succ', ← Nat.div_div_eq_div_mul,
        hupper, hm]
    · have hlast : tailByte (c * 64 + (b.toNat - 0x80)) 0 = b := by
        have hb' := hb.1
        rw [← UInt8.toNat_inj, toNat_tailByte, group]
        omega
      have htail : ∀ i, tailByte (c * 64 + (b.toNat - 0x80)) (i + 1) = tailByte c i := fun i => by
        rw [tailByte, tailByte, group_mul_add c hlt]
      rw [List.length_append, List.length_singleton, List.range_succ_eq_map, List.reverse_cons,
        List.map_append, List.map_singleton, hlast, ← List.map_reverse, List.map_map]
      simp only [Function.comp_def, Nat.succ_eq_add_one, htail]
      rw [← hgroups]

theorem encode_ne_nil (c : ℕ) : encode c ≠ [] := by
  unfold encode
  split_ifs <;> simp

theorem isTail_tailByte (c i : ℕ) : IsTail (tailByte c i) := by
  have := group_lt c i
  rw [IsTail, toNat_tailByte]
  omega

/-- Only the bytes behind the first of an encoding are `10xxxxxx`. -/
theorem exists_encode_eq_cons {c : ℕ} (hc : c ≤ 0x7FFFFFFF) :
    ∃ b ts, encode c = b :: ts ∧ ¬ IsTail b ∧ ∀ t ∈ ts, IsTail t := by
  have hlead : ∀ {n : ℕ}, n < 0x80 ∨ 0xC0 ≤ n → n < 256 → ¬ IsTail (UInt8.ofNat n) :=
    fun hn hlt h => by
      rw [IsTail, UInt8.toNat_ofNat', Nat.mod_eq_of_lt hlt] at h
      omega
  unfold encode
  split_ifs with h₁ h₂ h₃ h₄ h₅
  all_goals
    refine ⟨_, _, rfl, hlead (by omega) (by omega), ?_⟩
    simp [isTail_tailByte]

theorem length_encode_pos (c : ℕ) : 0 < (encode c).length :=
  List.length_pos_iff.mpr (encode_ne_nil c)

/-- A number is put together from its upper digits and its groups. -/
theorem eq_groups (c : ℕ) :
    (c = c / 64 * 64 + group c 0 ∧ group c 0 < 64) ∧
      (c / 64 = c / 64 ^ 2 * 64 + group c 1 ∧ group c 1 < 64) ∧
      (c / 64 ^ 2 = c / 64 ^ 3 * 64 + group c 2 ∧ group c 2 < 64) ∧
      (c / 64 ^ 3 = c / 64 ^ 4 * 64 + group c 3 ∧ group c 3 < 64) ∧
      c / 64 ^ 4 = c / 64 ^ 5 * 64 + group c 4 ∧ group c 4 < 64 := by
  simp only [group]
  omega

theorem toNat_le (c : Char) : c.toNat ≤ 0x10FFFF := by
  have := c.valid
  simp only [UInt32.isValidChar, Nat.isValidChar] at this
  rw [Char.toNat]
  omega

/-- On Unicode scalar values this is the encoding of Lean's strings. -/
theorem encode_toNat (c : Char) : encode c.toNat = String.utf8EncodeChar c := by
  have hmax : c.val.toNat ≤ 0x10FFFF := toNat_le c
  have hbyte : ∀ {m n : ℕ}, m = n → UInt8.ofNat m = UInt8.ofNat n := fun h => congrArg _ h
  unfold encode String.utf8EncodeChar tailByte group
  simp only [Char.toNat]
  split_ifs with h₁ h₂ h₃ h₄
  · rfl
  · exact congrArg₂ _ (hbyte (by omega)) (congrArg₂ _ (hbyte (by omega)) rfl)
  · exact congrArg₂ _ (hbyte (by omega)) (congrArg₂ _ (hbyte (by omega))
      (congrArg₂ _ (hbyte (by omega)) rfl))
  · exact congrArg₂ _ (hbyte (by omega)) (congrArg₂ _ (hbyte (by omega))
      (congrArg₂ _ (hbyte (by omega)) (congrArg₂ _ (hbyte (by omega)) rfl)))
  · exact absurd hmax (by omega)
  · exact absurd hmax (by omega)

end CodeTest.Utf8
