import CodeTest.UvLua.Decoder
import Mathlib.Data.Nat.Bitwise

/-!
# Unpacking what was packed

`unpack` gives the values that were packed, with one change and one gap. An integer that is not from
-2³¹ to 2³² - 1 cannot be sent, nor can a number below -2³¹; a negative number loses its fraction,
and entries of a table whose keys come back the same become one (`received`). The values together
are in the range of the C ints and of the stack of Lua (`InRange`). When what follows the
size is exactly 2²⁴ bytes long, the four bytes of the size read as 1, and nothing is unpacked.
-/

namespace CodeTest.UvLua.Decoder

/-! ## The length of a string -/

theorem and_7f (x : ℕ) : x &&& 0x7f = x % 128 := Nat.and_two_pow_sub_one_eq_mod x 7

theorem or_80 (x : ℕ) : (x % 128) ||| 0x80 = 128 + x % 128 := by
  have hlt : x % 128 < 2 ^ 7 := Nat.mod_lt x (by decide)
  rw [Nat.or_comm]
  exact (Nat.two_pow_add_eq_or_of_lt hlt 1).symm

theorem shiftLeft_or {x y k : ℕ} (hy : y < 2 ^ k) : x <<< k ||| y = x * 2 ^ k + y := by
  rw [← Nat.shiftLeft_add_eq_or_of_lt hy, Nat.shiftLeft_eq]

/-- A number of 28 bits is its own extension. -/
theorem signExtend_of_lt {n : ℕ} (h : n < 2 ^ 28) : signExtend n = n := by
  have hn : n % 2 ^ 32 = n := Nat.mod_eq_of_lt (by omega)
  have hand : BitVec.ofNat 32 n &&& (1#32 <<< 28) = 0#32 := by
    apply BitVec.eq_of_toNat_eq
    have hbit : n.testBit 28 = false := Nat.testBit_lt_two_pow h
    rw [BitVec.toNat_and, BitVec.toNat_ofNat, hn]
    show n &&& 2 ^ 28 = 0
    rw [Nat.and_two_pow, hbit]
    rfl
  rw [signExtend, hand, BitVec.neg_zero, BitVec.zero_or,
    BitVec.toInt_eq_toNat_of_lt (by rw [BitVec.toNat_ofNat, hn]; omega), BitVec.toNat_ofNat, hn]

/-- The high bit of a byte says that more follow. -/
theorem toNat_more (x : ℕ) : (UInt8.ofNat (x % 128 ||| 0x80)).toNat = 128 + x % 128 := by
  rw [UInt8.toNat_ofNat', or_80]
  omega

theorem toNat_last {x : ℕ} (h : x < 256) : (UInt8.ofNat x).toNat = x := by
  rw [UInt8.toNat_ofNat']
  omega

theorem not_more_lt (x : ℕ) : ¬ UInt8.ofNat (x % 128 ||| 0x80) < 128 := by
  rw [UInt8.lt_iff_toNat_lt, toNat_more]
  exact Nat.not_lt.mpr (Nat.le_add_right _ _)

theorem last_lt {x : ℕ} (h : x < 128) : UInt8.ofNat x < 128 := by
  rw [UInt8.lt_iff_toNat_lt, toNat_last (by omega)]
  exact h

theorem add_and_7f (x : ℕ) : (128 + x % 128) &&& 0x7f = x % 128 := by
  rw [and_7f]
  omega

/-- The length of a string is read as it was written. -/
theorem readLength_writeLength {n : ℕ} (h : n < 2 ^ 28) (rest : List UInt8) :
    readLength (writeLength n ++ rest) = some ((n : ℤ), (writeLength n).length) := by
  have hmask : n &&& 0x1FFFFFFF = n := by
    rw [show (0x1FFFFFFF : ℕ) = 2 ^ 29 - 1 by norm_num, Nat.and_two_pow_sub_one_eq_mod]
    omega
  have hlow : ∀ x : ℕ, x % 128 < 2 ^ 7 := fun x => Nat.mod_lt x (by decide)
  have hff : n &&& 0xff = n % 256 := Nat.and_two_pow_sub_one_eq_mod n 8
  simp only [writeLength, hmask, Nat.shiftRight_eq_div_pow, and_7f, hff]
  by_cases h₁ : n < 0x80
  · have hb := last_lt h₁
    simp [h₁, readLength, hb, toNat_last (show n < 256 by omega)]
  by_cases h₂ : n < 0x4000
  · have hb := last_lt (hlow n)
    simp only [h₁, h₂, if_true, if_false, readLength, List.cons_append, List.getElem?_cons_zero,
      List.getElem?_cons_succ, Option.bind_eq_bind, Option.bind_some, not_more_lt, toNat_more,
      add_and_7f, hb, toNat_last ((hlow n).trans (by decide))]
    rw [shiftLeft_or (hlow n), show n / 2 ^ 7 % 128 * 2 ^ 7 + n % 128 = n by omega,
      signExtend_of_lt h]
    rfl
  by_cases h₃ : n < 0x200000
  · have hb := last_lt (hlow n)
    simp only [h₁, h₂, h₃, if_true, if_false, readLength, List.cons_append,
      List.getElem?_cons_zero, List.getElem?_cons_succ, Option.bind_eq_bind, Option.bind_some,
      not_more_lt, toNat_more, add_and_7f, hb, toNat_last ((hlow n).trans (by decide))]
    rw [shiftLeft_or (hlow n), shiftLeft_or (hlow (n / 2 ^ 7)),
      show (n / 2 ^ 14 % 128 * 2 ^ 7 + n / 2 ^ 7 % 128) * 2 ^ 7 + n % 128 = n by omega,
      signExtend_of_lt h]
    rfl
  · have hbyte : n % 256 < 2 ^ 8 := Nat.mod_lt n (by decide)
    simp only [h₁, h₂, h₃, if_false, readLength, List.cons_append, List.getElem?_cons_zero,
      List.getElem?_cons_succ, Option.bind_eq_bind, Option.bind_some, not_more_lt, toNat_more,
      add_and_7f, toNat_last hbyte]
    rw [shiftLeft_or hbyte, shiftLeft_or (hlow (n / 2 ^ 8)), shiftLeft_or (hlow (n / 2 ^ 15)),
      show ((n / 2 ^ 22 % 128 * 2 ^ 7 + n / 2 ^ 15 % 128) * 2 ^ 7 + n / 2 ^ 8 % 128) * 2 ^ 8 +
        n % 256 = n by omega, signExtend_of_lt h]
    rfl

/-! ## The size -/

/-- One byte of a number, in its place. -/
theorem and_byte (x k : ℕ) : x &&& (0xff <<< k) = x / 2 ^ k % 256 * 2 ^ k := by
  have hbyte : x / 2 ^ k % 256 * 2 ^ k = ((x >>> k) &&& 0xff) <<< k := by
    rw [Nat.shiftLeft_eq, Nat.shiftRight_eq_div_pow]
    exact congrArg (· * 2 ^ k) (Nat.and_two_pow_sub_one_eq_mod _ 8).symm
  rw [hbyte]
  apply Nat.eq_of_testBit_eq
  intro i
  rw [Nat.testBit_and, Nat.testBit_shiftLeft, Nat.testBit_shiftLeft, Nat.testBit_and,
    Nat.testBit_shiftRight]
  by_cases hki : k ≤ i
  · rw [Nat.add_sub_cancel' hki]
    simp [hki]
  · simp [hki]

theorem or_high {x k : ℕ} (hx : x < 2 ^ k) (y : ℕ) : x ||| y * 2 ^ k = x + y * 2 ^ k := by
  rw [Nat.or_comm, Nat.mul_comm, ← Nat.two_pow_add_eq_or_of_lt hx, Nat.add_comm]

/-- `SWAP_U32` turns the four bytes round. -/
theorem toNat_swapU32 (x : UInt32) :
    (swapU32 x).toNat = x.toNat / 2 ^ 24 + x.toNat / 2 ^ 16 % 256 * 2 ^ 8 +
      x.toNat / 2 ^ 8 % 256 * 2 ^ 16 + x.toNat % 256 * 2 ^ 24 := by
  have hx : x.toNat < 2 ^ 32 := x.toNat_lt
  have h₃ : x.toNat &&& 0xff000000 = x.toNat / 2 ^ 24 % 256 * 2 ^ 24 := and_byte _ 24
  have h₂ : x.toNat &&& 0x00ff0000 = x.toNat / 2 ^ 16 % 256 * 2 ^ 16 := and_byte _ 16
  have h₁ : x.toNat &&& 0x0000ff00 = x.toNat / 2 ^ 8 % 256 * 2 ^ 8 := and_byte _ 8
  have h₀ : x.toNat &&& 0x000000ff = x.toNat % 256 := Nat.and_two_pow_sub_one_eq_mod _ 8
  simp only [swapU32, UInt32.toNat_or, UInt32.toNat_and, UInt32.toNat_shiftRight,
    UInt32.toNat_shiftLeft, UInt32.toNat_ofNat]
  norm_num only [h₀, h₁, h₂, h₃, Nat.shiftRight_eq_div_pow, Nat.shiftLeft_eq]
  generalize x.toNat = n at hx
  have hlow : ∀ m : ℕ, m % 256 < 256 := fun m => Nat.mod_lt m (by decide)
  have hb₀ := hlow n
  have hb₁ := hlow (n / 256)
  have hb₂ := hlow (n / 65536)
  have hb₃ := hlow (n / 16777216)
  rw [show n / 16777216 % 256 * 16777216 / 16777216 = n / 16777216 % 256 by omega,
    show n / 65536 % 256 * 65536 / 256 = n / 65536 % 256 * 2 ^ 8 by omega,
    show n / 256 % 256 * 256 * 256 % 4294967296 = n / 256 % 256 * 2 ^ 16 by omega,
    show n % 256 * 16777216 % 4294967296 = n % 256 * 2 ^ 24 by omega,
    or_high (k := 8) hb₃,
    or_high (x := n / 16777216 % 256 + n / 65536 % 256 * 2 ^ 8) (by omega),
    or_high (x := n / 16777216 % 256 + n / 65536 % 256 * 2 ^ 8 + n / 256 % 256 * 2 ^ 16) (by omega)]
  omega

/-- The four bytes of a number, and of the number turned round. -/
theorem exists_bytes (x : UInt32) : ∃ b₀ b₁ b₂ b₃ : ℕ, b₀ < 256 ∧ b₁ < 256 ∧ b₂ < 256 ∧ b₃ < 256 ∧
    x.toNat = b₀ + b₁ * 2 ^ 8 + b₂ * 2 ^ 16 + b₃ * 2 ^ 24 ∧
    (swapU32 x).toNat = b₃ + b₂ * 2 ^ 8 + b₁ * 2 ^ 16 + b₀ * 2 ^ 24 := by
  have hx : x.toNat < 2 ^ 32 := x.toNat_lt
  refine ⟨x.toNat % 256, x.toNat / 2 ^ 8 % 256, x.toNat / 2 ^ 16 % 256, x.toNat / 2 ^ 24,
    Nat.mod_lt _ (by decide), Nat.mod_lt _ (by decide), Nat.mod_lt _ (by decide), ?_, ?_,
    toNat_swapU32 x⟩
  · omega
  · omega

/-- The size that is read is not larger than 1 only if it was 0 or 2²⁴. -/
theorem one_lt_swapU32_iff (x : UInt32) :
    1 < (swapU32 x).toNat ↔ x.toNat ≠ 0 ∧ x.toNat ≠ 2 ^ 24 := by
  obtain ⟨b₀, b₁, b₂, b₃, h₀, h₁, h₂, h₃, hx, hswap⟩ := exists_bytes x
  rw [hx, hswap]
  constructor
  · intro hlt
    constructor
    · omega
    · intro h24
      have hb₀ : b₀ = 0 := by omega
      have hb₁ : b₁ = 0 := by omega
      have hb₂ : b₂ = 0 := by omega
      omega
  · rintro ⟨h0, h24⟩
    by_contra hle
    have hb₀ : b₀ = 0 := by omega
    have hb₁ : b₁ = 0 := by omega
    have hb₂ : b₂ = 0 := by omega
    omega

/-! ## What comes back -/

/-- The integer that a number becomes when its fraction is lost. -/
def truncated (q : ℚ) : ℤ := q.num.tdiv q.den

/-- Whether a number is neither lost nor out of the range of the integer types. -/
def SendableNumber (d : Binary64) : Prop :=
  d.Finite ∧ -2 ^ 31 ≤ d.value ∧ (d.value ≤ 2 ^ 32 - 1 ∨ d.value.den ≠ 1 ∧ d.value < 2 ^ 63)

instance (d : Binary64) : Decidable (SendableNumber d) :=
  inferInstanceAs (Decidable (_ ∧ _ ∧ (_ ∨ _ ∧ _)))

/-- The number that a sendable number comes back as. -/
def receivedNumber (d : Binary64) : Binary64 :=
  if 0 < d.value ∧ d.value.den ≠ 1 then d else .ofInt (truncated d.value)

mutual

/-- The value that comes back. Entries whose keys come back the same are one. -/
def received : LuaData → LuaData
  | .nil => .nil
  | .boolean b => .boolean b
  | .number d => .number (receivedNumber d)
  | .string s => .string s
  | .table entries => .table (receivedInto .none entries)

def receivedInto : LuaEntries → LuaEntries → LuaEntries
  | acc, .none => acc
  | acc, .entry k v rest => receivedInto (setEntry (received k) (received v) acc) rest

end

mutual

/-- What can be sent. No key of a table is nil. -/
def Sendable : LuaData → Prop
  | .nil => True
  | .boolean _ => True
  | .number d => SendableNumber d
  | .string s => s.length < 2 ^ 28
  | .table entries => SendableEntries entries

def SendableEntries : LuaEntries → Prop
  | .none => True
  | .entry k v rest => k ≠ .nil ∧ Sendable k ∧ Sendable v ∧ SendableEntries rest

end

/-! ## Numbers -/

theorem truncated_of_nonneg {q : ℚ} (h : 0 ≤ q) : truncated q = ⌊q⌋ := by
  rw [truncated, Rat.floor_def', Int.tdiv_eq_ediv_of_nonneg (Rat.num_nonneg.mpr h)]

theorem truncated_of_nonpos {q : ℚ} (h : q ≤ 0) : truncated q = ⌈q⌉ := by
  have hneg : truncated (-q) = -truncated q := by
    rw [truncated, truncated, Rat.num_neg_eq_neg_num, Rat.den_neg_eq_den, Int.neg_tdiv]
  have hfloor : truncated (-q) = ⌊-q⌋ := truncated_of_nonneg (neg_nonneg.mpr h)
  rw [Int.floor_neg, hneg] at hfloor
  exact neg_injective hfloor

theorem truncated_intCast (n : ℤ) : truncated n = n := by
  rw [truncated, Rat.num_intCast, Rat.den_intCast, Nat.cast_one, Int.tdiv_one]

theorem floor_lt_of_den_ne_one {q : ℚ} (h : q.den ≠ 1) : (⌊q⌋ : ℚ) < q := by
  refine lt_of_le_of_ne (Int.floor_le q) fun heq => h ?_
  rw [← heq, Rat.den_intCast]

/-- A number that loses its fraction does not become smaller. -/
theorem le_truncated {q : ℚ} (h : ¬ (0 < q ∧ q.den ≠ 1)) : q ≤ truncated q := by
  by_cases hpos : 0 < q
  · have hden : q.den = 1 := not_not.mp fun hne => h ⟨hpos, hne⟩
    rw [← Rat.den_eq_one_iff q |>.mp hden, truncated_intCast]
  · rw [truncated_of_nonpos (not_lt.mp hpos)]
    exact Int.le_ceil q

theorem truncated_lt (q : ℚ) : truncated q < q + 1 := by
  rcases le_total 0 q with h | h
  · rw [truncated_of_nonneg h]
    exact (Int.floor_le q).trans_lt (lt_add_one q)
  · rw [truncated_of_nonpos h]
    exact Int.ceil_lt_add_one q

theorem toInt64_eq {d : Binary64} (hfinite : d.Finite) (hlow : -2 ^ 63 ≤ truncated d.value)
    (hhigh : truncated d.value < 2 ^ 63) : toInt64 d = some (truncated d.value) :=
  if_pos ⟨hfinite, hlow, hhigh⟩

/-- The integers that can be sent. -/
theorem sendableNumber_ofInt {n : ℤ} (hlow : -2 ^ 31 ≤ n) (hhigh : n < 2 ^ 32) :
    SendableNumber (.ofInt n) := by
  have hvalue : (Binary64.ofInt n).value = n := Binary64.value_ofInt (by omega)
  refine ⟨Binary64.finite_ofInt (by omega), ?_, .inl ?_⟩
  · rw [hvalue]
    exact_mod_cast hlow
  · have hle : n + 1 ≤ 2 ^ 32 := hhigh
    have hcast : (n : ℚ) + 1 ≤ 2 ^ 32 := by exact_mod_cast hle
    rw [hvalue]
    linarith

/-- The branch for numbers of `lua_pushdata`. -/
theorem numberPushed_of_sendable {d : Binary64} (h : SendableNumber d) :
    numberPushed d = some (some (receivedNumber d)) := by
  obtain ⟨hfinite, hlow, hhigh⟩ := h
  have hltq : (truncated d.value : ℚ) < d.value + 1 := truncated_lt d.value
  by_cases hfrac : 0 < d.value ∧ d.value.den ≠ 1
  · have hfloor : truncated d.value = ⌊d.value⌋ := truncated_of_nonneg hfrac.1.le
    have hlt : (⌊d.value⌋ : ℚ) < d.value := floor_lt_of_den_ne_one hfrac.2
    have hnonneg : 0 ≤ ⌊d.value⌋ := Int.floor_nonneg.mpr hfrac.1.le
    have hlt63 : d.value < 2 ^ 63 := hhigh.elim (fun hle => by linarith) And.right
    have htop : ⌊d.value⌋ < 2 ^ 63 := by
      have hcast : (⌊d.value⌋ : ℚ) < ((2 ^ 63 : ℤ) : ℚ) := by
        push_cast
        exact hlt.trans hlt63
      exact_mod_cast hcast
    have hint : toInt64 d = some ⌊d.value⌋ := by
      rw [← hfloor]
      exact toInt64_eq hfinite (by omega) (by omega)
    rw [numberPushed, receivedNumber, if_pos hfrac, hint]
    exact if_neg (not_not.mpr (sub_pos.mpr hlt))
  · have hle : d.value ≤ truncated d.value := le_truncated hfrac
    have hhigh' : d.value ≤ 2 ^ 32 - 1 := by
      rcases hhigh with hhigh | ⟨hden, -⟩
      · exact hhigh
      · have : d.value ≤ 0 := not_lt.mp fun hpos => hfrac ⟨hpos, hden⟩
        linarith
    have hbot : -2 ^ 63 ≤ truncated d.value := by
      have hcast : ((-2 ^ 63 : ℤ) : ℚ) ≤ (truncated d.value : ℚ) := by
        push_cast
        linarith
      exact_mod_cast hcast
    have htop : truncated d.value < 2 ^ 63 := by
      have hcast : (truncated d.value : ℚ) < ((2 ^ 63 : ℤ) : ℚ) := by
        push_cast
        linarith
      exact_mod_cast hcast
    rw [numberPushed, receivedNumber, if_neg hfrac, toInt64_eq hfinite hbot htop]
    refine (if_pos (not_lt.mpr (sub_nonpos.mpr hle))).trans ?_
    by_cases hint : d.value ≤ intMax
    · exact if_pos ⟨hint, hlow⟩
    · refine (if_neg fun hand => hint hand.1).trans (if_pos ⟨hhigh', ?_⟩)
      have : (2 : ℚ) ^ 31 - 1 < d.value := not_le.mp hint
      linarith

/-! ## One value -/

theorem received_ne_nil {x : LuaData} (h : x ≠ .nil) : received x ≠ .nil := by
  cases x with
  | nil => exact absurd rfl h
  | boolean b => exact LuaData.noConfusion
  | number d => exact LuaData.noConfusion
  | string s => exact LuaData.noConfusion
  | table entries => exact LuaData.noConfusion

/-- No value starts like the end of the data. -/
theorem exists_serialone_eq (x : LuaData) : ∃ c tail, serialone x = c :: tail ∧ c ≠ tenddata := by
  cases x with
  | nil => exact ⟨tnil, [], rfl, by decide⟩
  | boolean b => exact ⟨tboolean, _, rfl, by decide⟩
  | number d => exact ⟨tnumber, _, rfl, by decide⟩
  | string s => exact ⟨tstring, _, rfl, by decide⟩
  | table entries => exact ⟨ttable, _, rfl, by decide⟩

theorem length_serialone_pos (x : LuaData) : 0 < (serialone x).length := by
  obtain ⟨c, tail, hx, -⟩ := exists_serialone_eq x
  rw [hx]
  exact Nat.succ_pos _

section

variable {fuel : ℕ} {L : List LuaData}

theorem pushdata_nil (rest : List UInt8) :
    pushdata (fuel + 1) L (serialone .nil ++ rest) = some (1, .nil :: L) := by
  rfl

theorem pushdata_boolean (b : Bool) (rest : List UInt8) :
    pushdata (fuel + 1) L (serialone (.boolean b) ++ rest) = some (2, .boolean b :: L) := by
  cases b <;> rfl

theorem pushdata_number {d : Binary64} (h : SendableNumber d) (rest : List UInt8) :
    pushdata (fuel + 1) L (serialone (.number d) ++ rest) =
      some (9, .number (receivedNumber d) :: L) := by
  have hlen : 8 ≤ (d.bytes ++ rest).length := by
    rw [List.length_append, Binary64.length_bytes]
    exact Nat.le_add_right 8 _
  have htake : (d.bytes ++ rest).take 8 = d.bytes := by
    rw [← Binary64.length_bytes d]
    exact List.take_left
  have hpushed : numberPushed (.ofBytes ((d.bytes ++ rest).take 8)) =
      some (some (receivedNumber d)) := by
    rw [htake, Binary64.ofBytes_bytes]
    exact numberPushed_of_sendable h
  have hc : tnumber ≠ tstring ∧ tnumber ≠ tboolean := by decide
  simp only [pushdata, serialone, List.cons_append, List.getElem?_cons_zero, List.drop_succ_cons,
    List.drop_zero, Option.bind_eq_bind, Option.bind_some, if_neg hc.1, if_neg hc.2, if_pos,
    if_pos hlen, hpushed]
  rfl

theorem pushdata_string {s : List UInt8} (h : s.length < 2 ^ 28) (rest : List UInt8) :
    pushdata (fuel + 1) L (serialone (.string s) ++ rest) =
      some (((serialone (.string s)).length : ℤ), .string s :: L) := by
  have hdrop : (writeLength s.length ++ s ++ rest).drop (writeLength s.length).length =
      s ++ rest := by
    rw [List.append_assoc]
    exact List.drop_left
  have hread : readLength (writeLength s.length ++ s ++ rest) =
      some ((s.length : ℤ), (writeLength s.length).length) := by
    rw [List.append_assoc]
    exact readLength_writeLength h (s ++ rest)
  have hlen : (0 : ℤ) ≤ s.length ∧ (s.length : ℤ) ≤ ((s.length + rest.length : ℕ) : ℤ) := by omega
  simp only [pushdata, serialone, List.cons_append, List.getElem?_cons_zero, List.drop_succ_cons,
    List.drop_zero, Option.bind_eq_bind, Option.bind_some, if_pos, hread, hdrop, if_pos hlen,
    Int.toNat_natCast, List.take_left, List.length_cons, List.length_append]
  refine congrArg (fun n : ℤ => some (n, LuaData.string s :: L)) ?_
  push_cast
  ring

/-- A table is what its loop makes of a new one. -/
theorem pushdata_table {entries : LuaEntries} {rest : List UInt8} {L' : List LuaData}
    (h : pushtable fuel (.table .none :: L) (serialtable entries ++ rest) =
      some (((serialtable entries).length : ℤ), L')) :
    pushdata (fuel + 1) L (serialone (.table entries) ++ rest) =
      some (((serialone (.table entries)).length : ℤ), L') := by
  have hc : ttable ≠ tstring ∧ ttable ≠ tboolean ∧ ttable ≠ tnumber ∧ ttable ≠ tnil := by decide
  have hused : ((serialtable entries).length : ℤ) ≠ -1 := by omega
  simp only [pushdata, serialone, List.cons_append, List.getElem?_cons_zero, List.drop_succ_cons,
    List.drop_zero, Option.bind_eq_bind, Option.bind_some, if_neg hc.1, if_neg hc.2.1,
    if_neg hc.2.2.1, if_neg hc.2.2.2, if_pos, h, if_neg hused, List.length_cons]
  refine congrArg (fun n : ℤ => some (n, L')) ?_
  push_cast
  ring

/-- The loop for a table stops at its end. -/
theorem pushtable_none (rest : List UInt8) :
    pushtable (fuel + 1) L (serialtable .none ++ rest) = some (1, L) := rfl

/-- One turn of the loop for a table. -/
theorem pushtable_entry {k v k' v' : LuaData} {entries acc : LuaEntries} {rest : List UInt8}
    {L' : List LuaData} (hk : k' ≠ .nil)
    (hkey : pushdata fuel (.table acc :: L)
        (serialone k ++ (serialone v ++ (serialtable entries ++ rest))) =
      some (((serialone k).length : ℤ), k' :: .table acc :: L))
    (hvalue : pushdata fuel (k' :: .table acc :: L)
        (serialone v ++ (serialtable entries ++ rest)) =
      some (((serialone v).length : ℤ), v' :: k' :: .table acc :: L))
    (hentries : pushtable fuel (.table (setEntry k' v' acc) :: L) (serialtable entries ++ rest) =
      some (((serialtable entries).length : ℤ), L')) :
    pushtable (fuel + 1) (.table acc :: L) (serialtable (.entry k v entries) ++ rest) =
      some (((serialtable (.entry k v entries)).length : ℤ), L') := by
  obtain ⟨c, tail, hc, hend⟩ := exists_serialone_eq k
  have hkpos : (0 : ℤ) < (serialone k).length := by exact_mod_cast length_serialone_pos k
  have hvpos : (0 : ℤ) < (serialone v).length := by exact_mod_cast length_serialone_pos v
  have hused : ((serialtable entries).length : ℤ) ≠ -1 := by omega
  have hbytes : serialtable (.entry k v entries) ++ rest =
      serialone k ++ (serialone v ++ (serialtable entries ++ rest)) := by
    rw [serialtable, List.append_assoc, List.append_assoc]
  have hfirst : (serialone k ++ (serialone v ++ (serialtable entries ++ rest)))[0]? = some c := by
    rw [hc]
    rfl
  have hset : settable (v' :: k' :: .table acc :: L) =
      some (.table (setEntry k' v' acc) :: L) := if_neg hk
  rw [hbytes, pushtable, hfirst, hkey]
  simp only [Option.bind_eq_bind, Option.bind_some, if_neg hend, if_pos hkpos, Int.toNat_natCast,
    List.drop_left, hvalue, if_pos hvpos, hset, hentries, if_neg hused]
  refine congrArg (fun n : ℤ => some (n, L')) ?_
  rw [serialtable, List.length_append, List.length_append]
  push_cast
  ring

end

mutual

/-- A value is read to its end, whatever follows it. The depth is bounded by the length. -/
theorem pushdata_serialone (x : LuaData) (h : Sendable x) {fuel : ℕ}
    (hfuel : (serialone x).length ≤ fuel) (L : List LuaData) (rest : List UInt8) :
    pushdata fuel L (serialone x ++ rest) = some (((serialone x).length : ℤ), received x :: L) := by
  obtain ⟨fuel, rfl⟩ : ∃ m, fuel = m + 1 :=
    ⟨fuel - 1, (Nat.sub_add_cancel ((length_serialone_pos x).trans_le hfuel)).symm⟩
  match x with
  | .nil => exact pushdata_nil rest
  | .boolean b => exact pushdata_boolean b rest
  | .number d =>
    rw [pushdata_number h, serialone, List.length_cons, Binary64.length_bytes]
    rfl
  | .string s => exact pushdata_string h rest
  | .table entries =>
    rw [serialone, List.length_cons] at hfuel
    exact pushdata_table
      (pushtable_serialtable entries h (Nat.le_of_succ_le_succ hfuel) .none L rest)

theorem pushtable_serialtable (entries : LuaEntries) (h : SendableEntries entries) {fuel : ℕ}
    (hfuel : (serialtable entries).length ≤ fuel) (acc : LuaEntries) (L : List LuaData)
    (rest : List UInt8) :
    pushtable fuel (.table acc :: L) (serialtable entries ++ rest) =
      some (((serialtable entries).length : ℤ), .table (receivedInto acc entries) :: L) := by
  match entries with
  | .none =>
    obtain ⟨fuel, rfl⟩ : ∃ m, fuel = m + 1 := ⟨fuel - 1, (Nat.sub_add_cancel hfuel).symm⟩
    exact pushtable_none rest
  | .entry k v entries =>
    obtain ⟨hk, hkey, hvalue, hentries⟩ := h
    have hkpos := length_serialone_pos k
    have hvpos := length_serialone_pos v
    rw [serialtable, List.length_append, List.length_append] at hfuel
    obtain ⟨fuel, rfl⟩ : ∃ m, fuel = m + 1 := ⟨fuel - 1, by omega⟩
    exact pushtable_entry (received_ne_nil hk) (pushdata_serialone k hkey (by omega) _ _)
      (pushdata_serialone v hvalue (by omega) _ _)
      (pushtable_serialtable entries hentries (by omega) _ _ _)

end

/-! ## The values -/

theorem payload_cons (v : LuaData) (vs : List LuaData) :
    payload (v :: vs) = serialone v ++ payload vs := by
  rw [payload, payload, List.flatMap_cons, List.append_assoc]

theorem deserialLoop_payload {vs : List LuaData} (h : ∀ v ∈ vs, Sendable v) {fuel : ℕ}
    (hfuel : (payload vs).length ≤ fuel) (i : ℕ) (L : List LuaData) (rest : List UInt8) :
    deserialLoop fuel i L (payload vs ++ rest) =
      some (i + vs.length, (vs.map received).reverse ++ L) := by
  induction vs generalizing fuel i L with
  | nil =>
    obtain ⟨fuel, rfl⟩ : ∃ m, fuel = m + 1 := ⟨fuel - 1, (Nat.sub_add_cancel hfuel).symm⟩
    rfl
  | cons v vs ih =>
    rw [payload_cons, List.length_append] at hfuel
    have hvpos := length_serialone_pos v
    have hend : 0 < (payload vs).length := by
      rw [payload, List.length_append]
      exact Nat.succ_pos _
    obtain ⟨fuel, rfl⟩ : ∃ m, fuel = m + 1 := ⟨fuel - 1, by omega⟩
    obtain ⟨c, tail, hc, hne⟩ := exists_serialone_eq v
    have hfirst : (serialone v ++ (payload vs ++ rest))[0]? = some c := by
      rw [hc]
      rfl
    have hused : (0 : ℤ) < (serialone v).length := by exact_mod_cast hvpos
    rw [payload_cons, List.append_assoc, deserialLoop, hfirst]
    simp only [Option.bind_eq_bind, Option.bind_some, if_neg hne,
      pushdata_serialone v (h v List.mem_cons_self) (show _ ≤ fuel by omega), if_pos hused,
      Int.toNat_natCast, List.drop_left]
    rw [ih (fun x hx => h x (List.mem_cons_of_mem v hx)) (by omega), List.length_cons,
      List.map_cons, List.reverse_cons, List.append_assoc, Nat.add_assoc, Nat.add_comm 1]
    rfl

/-- The size that `lua_defparser_deserial` reads in what was packed. -/
theorem size_serial (vs : List LuaData) :
    ofLittleEndian ((serial vs).take 4) =
      (swapU32 (UInt32.ofNat (payload vs).length)).toNat := by
  have htake : (serial vs).take 4 =
      littleEndian 4 (swapU32 (UInt32.ofNat (payload vs).length)).toNat := by
    rw [serial]
    exact List.take_left' (length_littleEndian 4 _)
  rw [htake, ofLittleEndian_littleEndian]
  exact Nat.mod_eq_of_lt (UInt32.toNat_lt _)

theorem deserial_serial {vs : List LuaData} (h : ∀ v ∈ vs, Sendable v)
    (hlen : (payload vs).length < 2 ^ 32) :
    deserial (serial vs) =
      some (if (payload vs).length = 2 ^ 24 then [] else vs.map received) := by
  have hlength : (serial vs).length = 4 + (payload vs).length := by
    rw [serial, List.length_append, length_littleEndian]
  have hnat : (UInt32.ofNat (payload vs).length).toNat = (payload vs).length := by
    rw [UInt32.toNat_ofNat']
    exact Nat.mod_eq_of_lt hlen
  have hsize_iff : 1 < ofLittleEndian ((serial vs).take 4) ↔
      (payload vs).length ≠ 0 ∧ (payload vs).length ≠ 2 ^ 24 := by
    rw [size_serial, one_lt_swapU32_iff, hnat]
  rw [deserial]
  by_cases hempty : vs = []
  · subst hempty
    rfl
  obtain ⟨v, vs', rfl⟩ := List.exists_cons_of_ne_nil hempty
  have hlong : 5 < (serial (v :: vs')).length := by
    have hvpos := length_serialone_pos v
    rw [hlength, payload_cons, List.length_append, payload, List.length_append,
      List.length_singleton]
    omega
  by_cases hsize : (payload (v :: vs')).length = 2 ^ 24
  · rw [if_neg fun hand => (hsize_iff.mp hand.2).2 hsize, if_pos hsize]
  · have hdrop : (serial (v :: vs')).drop 4 = payload (v :: vs') := by
      rw [serial]
      exact List.drop_left' (length_littleEndian 4 _)
    have hloop := deserialLoop_payload h (show _ ≤ (serial (v :: vs')).length by omega) 0
      [.string (serial (v :: vs'))] [0]
    have htake : ((((v :: vs').map received).reverse ++ [LuaData.string (serial (v :: vs'))]).take
        (0 + (v :: vs').length)) = ((v :: vs').map received).reverse :=
      List.take_left' (by rw [List.length_reverse, List.length_map, Nat.zero_add])
    rw [if_pos ⟨hlong, hsize_iff.mpr ⟨by omega, hsize⟩⟩, if_neg hsize, hdrop, hloop]
    refine congrArg some ?_
    rw [htake, List.reverse_reverse]

/-! ## What comes back as it was -/

def keys : LuaEntries → List LuaData
  | .none => []
  | .entry k _ rest => k :: keys rest

def append : LuaEntries → LuaEntries → LuaEntries
  | .none, es => es
  | .entry k v rest, es => .entry k v (append rest es)

mutual

/-- Values whose numbers lose nothing. No key of a table comes twice, and none has nil. -/
def Kept : LuaData → Prop
  | .nil => True
  | .boolean _ => True
  | .number d => (∃ n : ℤ, -2 ^ 31 ≤ n ∧ n < 2 ^ 32 ∧ d = .ofInt n) ∨ 0 < d.value ∧ d.value.den ≠ 1
  | .string _ => True
  | .table entries => KeptEntries entries

def KeptEntries : LuaEntries → Prop
  | .none => True
  | .entry k v rest =>
    Kept k ∧ Kept v ∧ v ≠ .nil ∧ (∀ k' ∈ keys rest, sameKey k k' = false) ∧ KeptEntries rest

end

theorem receivedNumber_ofInt {n : ℤ} (hlow : -2 ^ 31 ≤ n) (hhigh : n < 2 ^ 32) :
    receivedNumber (.ofInt n) = .ofInt n := by
  have hvalue : (Binary64.ofInt n).value = n := Binary64.value_ofInt (by omega)
  rw [receivedNumber, hvalue, if_neg fun hand => hand.2 (Rat.den_intCast n), truncated_intCast]

theorem append_none (es : LuaEntries) : append es .none = es := by
  induction es using keys.induct with
  | case1 => rfl
  | case2 k v rest ih => rw [append, ih]

theorem append_entry (acc : LuaEntries) (k v : LuaData) (rest : LuaEntries) :
    append (append acc (.entry k v .none)) rest = append acc (.entry k v rest) := by
  induction acc using keys.induct with
  | case1 => rfl
  | case2 k' v' rest' ih => rw [append, append, append, ih]

theorem keys_append (acc es : LuaEntries) : keys (append acc es) = keys acc ++ keys es := by
  induction acc using keys.induct with
  | case1 => rfl
  | case2 k v rest ih => rw [append, keys, keys, ih, List.cons_append]

/-- A new key goes to the end. -/
theorem setEntry_of_new {k v : LuaData} {acc : LuaEntries} (hv : v ≠ .nil)
    (h : ∀ k' ∈ keys acc, sameKey k' k = false) :
    setEntry k v acc = append acc (.entry k v .none) := by
  induction acc using keys.induct with
  | case1 => exact if_neg hv
  | case2 k' v' rest ih =>
    have hne : ¬ sameKey k' k = true := Bool.not_eq_true _ ▸ h k' List.mem_cons_self
    rw [setEntry, if_neg hne, ih fun a ha => h a (List.mem_cons_of_mem k' ha), append]

mutual

theorem received_of_kept (x : LuaData) (h : Kept x) : received x = x := by
  match x with
  | .nil => rfl
  | .boolean b => rfl
  | .number d =>
    rw [received]
    rcases h with ⟨n, hlow, hhigh, rfl⟩ | hfrac
    · rw [receivedNumber_ofInt hlow hhigh]
    · rw [receivedNumber, if_pos hfrac]
  | .string s => rfl
  | .table entries =>
    rw [received, receivedInto_of_kept entries h .none fun k' hk' => absurd hk' List.not_mem_nil]
    rfl

theorem receivedInto_of_kept (entries : LuaEntries) (h : KeptEntries entries) (acc : LuaEntries)
    (hnew : ∀ k' ∈ keys acc, ∀ k ∈ keys entries, sameKey k' k = false) :
    receivedInto acc entries = append acc entries := by
  match entries with
  | .none => exact (append_none acc).symm
  | .entry k v rest =>
    obtain ⟨hk, hv, hnil, hkeys, hrest⟩ := h
    rw [receivedInto, received_of_kept k hk, received_of_kept v hv,
      setEntry_of_new hnil fun k' hk' => hnew k' hk' k List.mem_cons_self,
      receivedInto_of_kept rest hrest _ fun k' hk' => ?_, append_entry]
    intro k'' hk''
    rw [keys_append] at hk'
    rcases List.mem_append.mp hk' with hk' | hk'
    · exact hnew k' hk' k'' (List.mem_cons_of_mem k hk'')
    · rw [List.mem_singleton.mp hk']
      exact hkeys k'' hk''

end

end CodeTest.UvLua.Decoder
