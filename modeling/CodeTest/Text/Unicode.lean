import CodeTest.Foundations.Utf8
import CodeTest.Text.LuaString
import Mathlib.Control.Basic
import Mathlib.Data.BitVec

/-!
# Decoding UTF-8

The functions of `unicode.lua`: one scan over a string, which cuts off a character by its first byte
and hands it on, and the decoder of one character. The `bit` library takes its arguments modulo
`2 ^ 32` and gives back signed numbers of 32 bits.

Each branch of the decoder puts the number together from bytes of its own, `c1 * 2 ^ 24 + …`, each
of them taken from two bytes of the character by shifts and masks. On numbers these are divisions
and remainders, so a branch is right when the digits to the base 256 that it takes are those of the
number whose digits to the base 64 the character has.
-/

namespace CodeTest.Text

open Utf8

namespace Bit

def band (a b : ℤ) : ℤ := (BitVec.ofInt 32 a &&& BitVec.ofInt 32 b).toInt

def lshift (a n : ℤ) : ℤ := (BitVec.ofInt 32 a <<< (n % 32).toNat).toInt

def rshift (a n : ℤ) : ℤ := (BitVec.ofInt 32 a >>> (n % 32).toNat).toInt

end Bit

open Bit

def encGetUtf8Bytes (char : ℤ) : ℤ :=
  if char ≥ 0 ∧ char < 0x80 then 1
  else if char ≥ 0xc0 ∧ char < 0xe0 then 2
  else if char ≥ 0xe0 ∧ char < 0xf0 then 3
  else if char ≥ 0xf0 ∧ char < 0xf8 then 4
  else if char ≥ 0xf8 ∧ char < 0xfc then 5
  else if char ≥ 0xfc ∧ char < 0xfe then 6
  else -1

theorem encGetUtf8Bytes_pos {char : ℤ} (h : encGetUtf8Bytes char ≠ -1) :
    0 < (encGetUtf8Bytes char).toNat := by
  unfold encGetUtf8Bytes at h ⊢
  split_ifs at h ⊢ <;> simp_all

/-- The loop of `split_utf8_character_list` and of `enc_utf8_to_unicode`, which differ in what they
make of a character. -/
def characterLoop {α : Type} (convert : LuaString → Except LuaError α) (str : LuaString) (i : ℕ)
    (list : List α) : Except LuaError (List α) :=
  if _h : i ≤ str.length then
    match stringByte str i with
    | none => .error .compareNil
    | some c =>
      if _hb : encGetUtf8Bytes c = -1 then
        .ok list
      else
        match convert (stringSub str i (i + (encGetUtf8Bytes c).toNat - 1)) with
        | .error e => .error e
        | .ok character =>
          characterLoop convert str (i + (encGetUtf8Bytes c).toNat) (list ++ [character])
  else
    .ok list
termination_by str.length + 1 - i
decreasing_by
  have := encGetUtf8Bytes_pos _hb
  omega

def splitUtf8CharacterList (str : LuaString) : Except LuaError (List LuaString) :=
  characterLoop .ok str 1 []

/-- The test `bit.band(b, 0xc0) ~= 0x80` of a further byte, which ends the decoder without a value;
on nil, `band` raises an error. -/
def furtherByte (character : LuaString) (i : ℕ) : OptionT (Except LuaError) ℤ :=
  match stringByte character i with
  | none => .lift (.error (.badArgument 1 "band"))
  | some b => if band b 0xc0 ≠ 0x80 then failure else pure b

/-- The decoder of one character. The outcome `none` is a return without a value. -/
def encUtf8ToUnicodeOne (character : LuaString) : OptionT (Except LuaError) ℤ :=
  match stringByte character 1 with
  | none => .lift (.error .compareNil)
  | some b1 =>
    let utfbytes := encGetUtf8Bytes b1
    if utfbytes = -1 then
      failure
    else if utfbytes = 1 then
      pure b1
    else if utfbytes = 2 then do
      let b2 ← furtherByte character 2
      let c1 := band (band (rshift b1 2) 0xff) 0x07
      let c2 := band (lshift b1 6) 0xff + band b2 0x3f
      pure (lshift c1 8 + c2)
    else if utfbytes = 3 then do
      let b2 ← furtherByte character 2
      let b3 ← furtherByte character 3
      let c1 := band (lshift b1 4) 0xff + band (band (rshift b2 2) 0xff) 0x0f
      let c2 := band (lshift b2 6) 0xff + band b3 0x3f
      pure (lshift c1 8 + c2)
    else if utfbytes = 4 then do
      let b2 ← furtherByte character 2
      let b3 ← furtherByte character 3
      let b4 ← furtherByte character 4
      let c1 := band (band (lshift b1 2) 0xff) 0x1c + band (band (rshift b2 4) 0xff) 0x03
      let c2 := band (lshift b2 4) 0xff + band (band (rshift b3 2) 0xff) 0x0f
      let c3 := band (lshift b3 6) 0xff + band b4 0x3f
      pure (lshift c1 16 + lshift c2 8 + c3)
    else if utfbytes = 5 then do
      let b2 ← furtherByte character 2
      let b3 ← furtherByte character 3
      let b4 ← furtherByte character 4
      let b5 ← furtherByte character 5
      let c1 := band b1 0x03
      let c2 := band (lshift b2 2) 0xff + band (rshift b3 4) 0x03
      let c3 := band (lshift b3 4) 0xff + band (rshift b4 2) 0x0f
      let c4 := band (lshift b4 6) 0xff + band b5 0x3f
      pure (lshift c1 24 + lshift c2 16 + lshift c3 8 + c4)
    else do
      let b2 ← furtherByte character 2
      let b3 ← furtherByte character 3
      let b4 ← furtherByte character 4
      let b5 ← furtherByte character 5
      let b6 ← furtherByte character 6
      let c1 := band (lshift b1 6) 0x40 + band b2 0x3f
      let c2 := band (lshift b3 2) 0xff + band (rshift b4 4) 0x03
      let c3 := band (lshift b4 4) 0xff + band (rshift b5 2) 0x0f
      let c4 := band (lshift b5 6) 0xff + band b6 0x3f
      pure (lshift c1 24 + lshift c2 16 + lshift c3 8 + c4)

/-- `string.format("\\u%x", unicode)`, for a number that is not negative. -/
def formatUnicode (unicode : ℤ) : String := "\\u" ++ String.ofList (Nat.toDigits 16 unicode.toNat)

def encUtf8ToUnicode (str : LuaString) : Except LuaError (List String) :=
  characterLoop (fun character =>
    match (encUtf8ToUnicodeOne character).run with
    | .error e => .error e
    | .ok none => .error (.badArgument 2 "format")
    | .ok (some unicode) => .ok (formatUnicode unicode)) str 1 []

/-! ## The bit library on numbers -/

theorem toInt_of_lt {v : BitVec 32} {n : ℕ} (h : v.toNat = n) (hn : n < 2 ^ 31) :
    v.toInt = (n : ℤ) := by
  rw [BitVec.toInt_eq_toNat_of_lt (by omega), h]

/-- A mask of the `k` lowest bits leaves the remainder. -/
theorem band_mask (a : ℕ) {m k : ℕ} (hm : m = 2 ^ k - 1) (hk : k < 32) :
    band a m = (a % 2 ^ k : ℕ) := by
  have hpow : 2 ^ k ≤ 2 ^ 31 := Nat.pow_le_pow_right (by decide) (by omega)
  have hpos : 0 < 2 ^ k := Nat.two_pow_pos k
  refine toInt_of_lt ?_ (Nat.lt_of_lt_of_le (Nat.mod_lt _ hpos) hpow)
  rw [BitVec.ofInt_natCast, BitVec.ofInt_natCast, BitVec.toNat_and, BitVec.toNat_ofNat,
    BitVec.toNat_ofNat, Nat.mod_eq_of_lt (a := m) (by omega), hm, Nat.and_two_pow_sub_one_eq_mod,
    Nat.mod_mod_of_dvd _ (Nat.pow_dvd_pow 2 (by omega))]

/-- The masks of the decoder that are of this kind. -/
theorem band_masks (a : ℕ) :
    band a 0xff = (a % 256 : ℕ) ∧ band a 0x3f = (a % 64 : ℕ) ∧ band a 0x0f = (a % 16 : ℕ) ∧
      band a 0x07 = (a % 8 : ℕ) ∧ band a 0x03 = (a % 4 : ℕ) :=
  ⟨band_mask a (k := 8) rfl (by decide), band_mask a (k := 6) rfl (by decide),
    band_mask a (k := 4) rfl (by decide), band_mask a (k := 3) rfl (by decide),
    band_mask a (k := 2) rfl (by decide)⟩

theorem lshift_of_lt {a n : ℕ} (hn : n < 32) (h : a * 2 ^ n < 2 ^ 31) :
    lshift a n = (a * 2 ^ n : ℕ) := by
  refine toInt_of_lt ?_ h
  have ha : a < 2 ^ 32 := by
    have := Nat.le_mul_of_pos_right a (Nat.two_pow_pos n)
    omega
  rw [show ((n : ℤ) % 32).toNat = n by omega, BitVec.ofInt_natCast, BitVec.toNat_shiftLeft,
    BitVec.toNat_ofNat, Nat.mod_eq_of_lt ha, Nat.shiftLeft_eq, Nat.mod_eq_of_lt (by omega)]

theorem rshift_of_lt {a n : ℕ} (hn : n < 32) (h : a < 2 ^ 31) : rshift a n = (a / 2 ^ n : ℕ) := by
  refine toInt_of_lt ?_ (Nat.lt_of_le_of_lt (Nat.div_le_self _ _) h)
  rw [show ((n : ℤ) % 32).toNat = n by omega, BitVec.ofInt_natCast, BitVec.toNat_ushiftRight,
    BitVec.toNat_ofNat, Nat.mod_eq_of_lt (by omega), Nat.shiftRight_eq_div_pow]

/-- The two masks of the decoder that are not of low bits, on the bytes they are used for. -/
theorem band_inner : (∀ b < 256, band (b : ℕ) 0x1c = (b / 4 % 8 * 4 : ℕ)) ∧
    ∀ b < 256, band (lshift (b : ℕ) 6) 0x40 = (b % 2 * 64 : ℕ) := by
  decide +kernel

/-- The shifts of the decoder, on bytes. -/
theorem shifts {b : ℕ} (hb : b < 256) :
    (rshift b 2 = (b / 4 : ℕ) ∧ rshift b 4 = (b / 16 : ℕ)) ∧
      (lshift b 2 = (b * 4 : ℕ) ∧ lshift b 4 = (b * 16 : ℕ) ∧ lshift b 6 = (b * 64 : ℕ)) ∧
      lshift b 8 = (b * 256 : ℕ) ∧ lshift b 16 = (b * 65536 : ℕ) :=
  ⟨⟨rshift_of_lt (n := 2) (by decide) (by omega), rshift_of_lt (n := 4) (by decide) (by omega)⟩,
    ⟨lshift_of_lt (n := 2) (by decide) (by omega), lshift_of_lt (n := 4) (by decide) (by omega),
      lshift_of_lt (n := 6) (by decide) (by omega)⟩,
    lshift_of_lt (n := 8) (by decide) (by omega), lshift_of_lt (n := 16) (by decide) (by omega)⟩

/-- The highest byte, of a number that fits. -/
theorem lshift_top {b : ℕ} (hb : b < 128) : lshift b 24 = (b * 16777216 : ℕ) :=
  lshift_of_lt (n := 24) (by decide) (by omega)

/-! ## The decoder of one character -/

/-- The ranges of the first byte. -/
theorem encGetUtf8Bytes_eq (b : ℕ) :
    (b < 0x80 → encGetUtf8Bytes b = 1) ∧ (0xC0 ≤ b ∧ b < 0xE0 → encGetUtf8Bytes b = 2) ∧
      (0xE0 ≤ b ∧ b < 0xF0 → encGetUtf8Bytes b = 3) ∧
      (0xF0 ≤ b ∧ b < 0xF8 → encGetUtf8Bytes b = 4) ∧
      (0xF8 ≤ b ∧ b < 0xFC → encGetUtf8Bytes b = 5) ∧
      (0xFC ≤ b ∧ b < 0xFE → encGetUtf8Bytes b = 6) := by
  unfold encGetUtf8Bytes
  split_ifs <;> omega

theorem furtherByte_cons (b : UInt8) (s : LuaString) (i : ℕ) :
    furtherByte (b :: s) (i + 2) = furtherByte s (i + 1) := rfl

/-- The test of a further byte is passed by the bytes `10xxxxxx`. -/
theorem band_mark : ∀ b < 256, band (b : ℕ) 0xc0 = 0x80 ↔ 0x80 ≤ b ∧ b ≤ 0xBF := by
  decide +kernel

theorem furtherByte_tailByte (c j : ℕ) (s : LuaString) :
    furtherByte (tailByte c j :: s) 1 = pure ((0x80 + group c j : ℕ) : ℤ) := by
  have hmark : band ((0x80 + group c j : ℕ) : ℤ) 0xc0 = 0x80 := by
    have htail := isTail_tailByte c j
    rw [IsTail, toNat_tailByte] at htail
    exact (band_mark _ (tail_lt c j)).mpr htail
  simp only [furtherByte, stringByte_one, toNat_tailByte, hmark, ne_eq, not_true_eq_false, if_false]

/-- The row of two bytes. -/
theorem encUtf8ToUnicodeOne_two {c : ℕ} {b : UInt8} (hb : b.toNat = 0xC0 + c / 64)
    (hc : c ≤ 0x7FF) :
    encUtf8ToUnicodeOne [b, tailByte c 0] = pure (c : ℤ) := by
  have hbytes := (encGetUtf8Bytes_eq b.toNat).2.1 (by omega)
  have heq := eq_groups c
  simp only [encUtf8ToUnicodeOne, stringByte_one, hbytes, Int.reduceNeg, Int.reduceEq, reduceIte,
    furtherByte_cons, Nat.reduceAdd]
  simp only [furtherByte_tailByte, pure_bind, band_masks, shifts b.toNat_lt, ← Nat.cast_add]
  rw [(shifts (by omega)).2.2.1]
  exact congrArg (fun n : ℕ => pure (n : ℤ)) (by omega)

/-- The row of three bytes. -/
theorem encUtf8ToUnicodeOne_three {c : ℕ} {b : UInt8} (hb : b.toNat = 0xE0 + c / 64 ^ 2)
    (hc : c ≤ 0xFFFF) :
    encUtf8ToUnicodeOne [b, tailByte c 1, tailByte c 0] = pure (c : ℤ) := by
  have hbytes := (encGetUtf8Bytes_eq b.toNat).2.2.1 (by omega)
  have heq := eq_groups c
  simp only [encUtf8ToUnicodeOne, stringByte_one, hbytes, Int.reduceNeg, Int.reduceEq, reduceIte,
    furtherByte_cons, Nat.reduceAdd]
  simp only [furtherByte_tailByte, pure_bind, band_masks, shifts b.toNat_lt, shifts (tail_lt c 1),
    ← Nat.cast_add]
  rw [(shifts (by omega)).2.2.1]
  exact congrArg (fun n : ℕ => pure (n : ℤ)) (by omega)

/-- The row of four bytes. -/
theorem encUtf8ToUnicodeOne_four {c : ℕ} {b : UInt8} (hb : b.toNat = 0xF0 + c / 64 ^ 3)
    (hc : c ≤ 0x1FFFFF) :
    encUtf8ToUnicodeOne [b, tailByte c 2, tailByte c 1, tailByte c 0] = pure (c : ℤ) := by
  have hbytes := (encGetUtf8Bytes_eq b.toNat).2.2.2.1 (by omega)
  have heq := eq_groups c
  simp only [encUtf8ToUnicodeOne, stringByte_one, hbytes, Int.reduceNeg, Int.reduceEq, reduceIte,
    furtherByte_cons, Nat.reduceAdd]
  simp only [furtherByte_tailByte, pure_bind, band_masks, shifts b.toNat_lt, shifts (tail_lt c 1),
    shifts (tail_lt c 2), band_inner.1 _ (Nat.mod_lt _ (by decide : 0 < 256)), ← Nat.cast_add]
  rw [(shifts (by omega)).2.2.1, (shifts (by omega)).2.2.2]
  exact congrArg (fun n : ℕ => pure (n : ℤ)) (by omega)

/-- The row of five bytes. -/
theorem encUtf8ToUnicodeOne_five {c : ℕ} {b : UInt8} (hb : b.toNat = 0xF8 + c / 64 ^ 4)
    (hc : c ≤ 0x3FFFFFF) :
    encUtf8ToUnicodeOne [b, tailByte c 3, tailByte c 2, tailByte c 1, tailByte c 0] =
      pure (c : ℤ) := by
  have hbytes := (encGetUtf8Bytes_eq b.toNat).2.2.2.2.1 (by omega)
  have heq := eq_groups c
  simp only [encUtf8ToUnicodeOne, stringByte_one, hbytes, Int.reduceNeg, Int.reduceEq, reduceIte,
    furtherByte_cons, Nat.reduceAdd]
  simp only [furtherByte_tailByte, pure_bind, band_masks, shifts (tail_lt c 1),
    shifts (tail_lt c 2), shifts (tail_lt c 3), ← Nat.cast_add]
  rw [(shifts (by omega)).2.2.1, (shifts (by omega)).2.2.2, lshift_top (by omega)]
  exact congrArg (fun n : ℕ => pure (n : ℤ)) (by omega)

/-- The row of six bytes. -/
theorem encUtf8ToUnicodeOne_six {c : ℕ} {b : UInt8} (hb : b.toNat = 0xFC + c / 64 ^ 5)
    (hc : c ≤ 0x7FFFFFFF) :
    encUtf8ToUnicodeOne [b, tailByte c 4, tailByte c 3, tailByte c 2, tailByte c 1, tailByte c 0] =
      pure (c : ℤ) := by
  have hbytes := (encGetUtf8Bytes_eq b.toNat).2.2.2.2.2 (by omega)
  have heq := eq_groups c
  simp only [encUtf8ToUnicodeOne, stringByte_one, hbytes, Int.reduceNeg, Int.reduceEq, reduceIte,
    furtherByte_cons, Nat.reduceAdd]
  simp only [furtherByte_tailByte, pure_bind, band_masks, shifts (tail_lt c 1),
    shifts (tail_lt c 2), shifts (tail_lt c 3), band_inner.2 _ b.toNat_lt, ← Nat.cast_add]
  rw [(shifts (by omega)).2.2.1, (shifts (by omega)).2.2.2, lshift_top (by omega)]
  exact congrArg (fun n : ℕ => pure (n : ℤ)) (by omega)

/-- The decoder inverts the encoding. -/
theorem encUtf8ToUnicodeOne_encode {c : ℕ} (hc : c ≤ 0x7FFFFFFF) :
    encUtf8ToUnicodeOne (encode c) = pure (c : ℤ) := by
  have hlead : ∀ {n : ℕ}, n < 256 → (UInt8.ofNat n).toNat = n := fun h => by
    rw [UInt8.toNat_ofNat']
    omega
  unfold encode
  split_ifs with h₁ h₂ h₃ h₄ h₅
  · have hone := (encGetUtf8Bytes_eq c).1 (by omega)
    simp only [encUtf8ToUnicodeOne, stringByte_one, hlead (n := c) (by omega), hone, Int.reduceNeg,
      Int.reduceEq, reduceIte]
  · exact encUtf8ToUnicodeOne_two (hlead (by omega)) h₂
  · exact encUtf8ToUnicodeOne_three (hlead (by omega)) h₃
  · exact encUtf8ToUnicodeOne_four (hlead (by omega)) h₄
  · exact encUtf8ToUnicodeOne_five (hlead (by omega)) h₅
  · exact encUtf8ToUnicodeOne_six (hlead (by omega)) hc

/-! ## The scan -/

/-- The first byte of an encoding tells its length. -/
theorem encGetUtf8Bytes_encode {c : ℕ} (hc : c ≤ 0x7FFFFFFF) :
    ∃ b s, encode c = b :: s ∧ encGetUtf8Bytes (b.toNat : ℤ) = ((encode c).length : ℤ) := by
  have hlead : ∀ {n : ℕ}, n < 256 → ((UInt8.ofNat n).toNat : ℤ) = n := fun h => by
    rw [UInt8.toNat_ofNat']
    omega
  unfold encode encGetUtf8Bytes
  split_ifs with h₁ h₂ h₃ h₄ h₅
  all_goals
    refine ⟨_, _, rfl, ?_⟩
    rw [hlead (by omega)]
    split_ifs <;> first | rfl | omega

/-- The scan, from the border behind `done`, over the encodings of `cs`. -/
theorem characterLoop_encode {α : Type} {convert : LuaString → Except LuaError α} {f : ℕ → α}
    {cs : List ℕ} (hcs : ∀ c ∈ cs, c ≤ 0x7FFFFFFF)
    (hconvert : ∀ c ∈ cs, convert (encode c) = .ok (f c)) (done : LuaString) (list : List α) :
    characterLoop convert (done ++ cs.flatMap encode) (done.length + 1) list =
      .ok (list ++ cs.map f) := by
  induction cs generalizing done list with
  | nil => rw [characterLoop, dif_neg (by simp)]; simp
  | cons c cs ih =>
    obtain ⟨b, s, hencode, hbytes⟩ := encGetUtf8Bytes_encode (hcs c (by simp))
    have hpos := length_encode_pos c
    have hbyte : stringByte (done ++ (c :: cs).flatMap encode) (done.length + 1) =
        some (b.toNat : ℤ) := by
      rw [stringByte_append, List.flatMap_cons, hencode]
      rfl
    have hsub : stringSub (done ++ (c :: cs).flatMap encode) (done.length + 1)
        (done.length + 1 + (encode c).length - 1) = encode c := by
      rw [Nat.add_right_comm, Nat.add_sub_cancel, stringSub_append, List.flatMap_cons,
        List.take_left]
    have hnext := ih (fun c' h => hcs c' (.tail _ h)) (fun c' h => hconvert c' (.tail _ h))
      (done ++ encode c) (list ++ [f c])
    rw [List.append_assoc, ← List.flatMap_cons, List.length_append, Nat.add_right_comm] at hnext
    rw [characterLoop, dif_pos (by simp [hencode]), hbyte]
    simp only [hbytes, Int.toNat_natCast, hsub, hconvert c (by simp)]
    rw [dif_neg (by omega), hnext, List.map_cons, List.append_assoc]
    rfl

/-- **The decoder inverts the encoding table.** For all code points below `2 ^ 31`, the string of
their encodings is cut into the encodings and decoded to the code points. -/
theorem decode_flatMap_encode (cs : List ℕ) (hcs : ∀ c ∈ cs, c ≤ 0x7FFFFFFF) :
    splitUtf8CharacterList (cs.flatMap encode) = .ok (cs.map encode) ∧
      encUtf8ToUnicode (cs.flatMap encode) = .ok (cs.map fun c : ℕ => formatUnicode c) ∧
      ∀ c ∈ cs, (encUtf8ToUnicodeOne (encode c)).run = .ok (some (c : ℤ)) := by
  have hone : ∀ c ∈ cs, (encUtf8ToUnicodeOne (encode c)).run = .ok (some (c : ℤ)) := by
    intro c hc
    rw [encUtf8ToUnicodeOne_encode (hcs c hc)]
    rfl
  refine ⟨?_, ?_, hone⟩
  · exact characterLoop_encode hcs (fun c _ => rfl) [] []
  · refine characterLoop_encode hcs (fun c hc => ?_) [] []
    rw [hone c hc]

/-- One code point of each row of the table. -/
theorem decode_rows :
    splitUtf8CharacterList ([0x24, 0xA3, 0x20AC, 0x1F600, 0x200000, 0x7FFFFFFF].flatMap encode) =
        .ok ([0x24, 0xA3, 0x20AC, 0x1F600, 0x200000, 0x7FFFFFFF].map encode) ∧
      encUtf8ToUnicode ([0x24, 0xA3, 0x20AC, 0x1F600, 0x200000, 0x7FFFFFFF].flatMap encode) =
        .ok ([0x24, 0xA3, 0x20AC, 0x1F600, 0x200000, 0x7FFFFFFF].map
          fun c : ℕ => formatUnicode c) ∧
      ∀ c ∈ [0x24, 0xA3, 0x20AC, 0x1F600, 0x200000, 0x7FFFFFFF],
        (encUtf8ToUnicodeOne (encode c)).run = .ok (some (c : ℤ)) :=
  decode_flatMap_encode _ (by decide)

end CodeTest.Text
