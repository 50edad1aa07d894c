import CodeTest.Text.Unicode

/-!
# The two scans on any bytes

`split_utf8_character_list` and `enc_utf8_to_unicode` run the same loop. The first keeps whatever it
cuts off, the second decodes it, and the decoder gives no value for a byte that should be `10xxxxxx`
and is not, and calls `bit.band` on nil where the character ends too early. Neither outcome is a
number for `string.format`.

So the two agree on the strings that the scan cuts into whole characters (`Characters`), and on the
others the second one raises an error.
-/

namespace CodeTest.Text

open Utf8 Bit

/-- The loop with the position `i` at which it stops. -/
def characterScan {α : Type} (convert : LuaString → Except LuaError α) (str : LuaString) (i : ℕ)
    (list : List α) : Except LuaError (List α × ℕ) :=
  if _h : i ≤ str.length then
    match stringByte str i with
    | none => .error .compareNil
    | some c =>
      if _hb : encGetUtf8Bytes c = -1 then
        .ok (list, i)
      else
        match convert (stringSub str i (i + (encGetUtf8Bytes c).toNat - 1)) with
        | .error e => .error e
        | .ok character =>
          characterScan convert str (i + (encGetUtf8Bytes c).toNat) (list ++ [character])
  else
    .ok (list, i)
termination_by str.length + 1 - i
decreasing_by
  have := encGetUtf8Bytes_pos _hb
  omega

/-- The list is that of the loop. -/
theorem map_fst_characterScan {α : Type} (convert : LuaString → Except LuaError α)
    (str : LuaString) (i : ℕ) (list : List α) :
    (characterScan convert str i list).map Prod.fst = characterLoop convert str i list := by
  fun_induction characterScan convert str i list with
  | case1 i list h hc => rw [characterLoop, dif_pos h, hc]; rfl
  | case2 i list h c hc hb => rw [characterLoop, dif_pos h, hc]; simp only [dif_pos hb]; rfl
  | case3 i list h c hc hb e he =>
    rw [characterLoop, dif_pos h, hc]
    simp only [dif_neg hb, he]
    rfl
  | case4 i list h c hc hb character hcharacter ih =>
    rw [characterLoop, dif_pos h, hc]
    simp only [dif_neg hb, hcharacter]
    exact ih
  | case5 i list h => rw [characterLoop, dif_neg h]; rfl

/-- What `enc_utf8_to_unicode` makes of a character. -/
def formatCharacter (character : LuaString) : Except LuaError String :=
  match (encUtf8ToUnicodeOne character).run with
  | .error e => .error e
  | .ok none => .error (.badArgument 2 "format")
  | .ok (some unicode) => .ok (formatUnicode unicode)

theorem encUtf8ToUnicode_eq (str : LuaString) :
    encUtf8ToUnicode str = characterLoop formatCharacter str 1 [] := rfl

/-- Both functions return, with lists of one length, and their loops stop at one position. -/
def Agree (str : LuaString) : Prop :=
  ∃ units characters i, encUtf8ToUnicode str = .ok units ∧
    splitUtf8CharacterList str = .ok characters ∧ units.length = characters.length ∧
    (characterScan formatCharacter str 1 []).map Prod.snd = .ok i ∧
    (characterScan .ok str 1 []).map Prod.snd = .ok i

/-- A whole character: the first byte tells the number of bytes, and the others are `10xxxxxx`. -/
def IsCharacter : LuaString → Prop
  | [] => False
  | b :: s => encGetUtf8Bytes b.toNat = s.length + 1 ∧ ∀ b' ∈ s, IsTail b'

/-- Whole characters, up to the end or to a byte that begins none. -/
inductive Characters : LuaString → Prop
  | nil : Characters []
  | stop {b : UInt8} {s : LuaString} (h : encGetUtf8Bytes b.toNat = -1) : Characters (b :: s)
  | cons {character s : LuaString} (h : IsCharacter character) (hs : Characters s) :
    Characters (character ++ s)

/-! ## The decoder on any bytes -/

/-- The first byte of each row. -/
theorem encGetUtf8Bytes_cases {b : ℕ} {n : ℕ} (h : encGetUtf8Bytes b = n) :
    n = 1 ∧ b < 0x80 ∨ n = 2 ∧ 0xC0 ≤ b ∧ b < 0xE0 ∨ n = 3 ∧ 0xE0 ≤ b ∧ b < 0xF0 ∨
      n = 4 ∧ 0xF0 ≤ b ∧ b < 0xF8 ∨ n = 5 ∧ 0xF8 ≤ b ∧ b < 0xFC ∨
      n = 6 ∧ 0xFC ≤ b ∧ b < 0xFE := by
  unfold encGetUtf8Bytes at h
  split_ifs at h <;> omega

/-- A first byte of the row of `k` further bytes, and such bytes, are put together from a number. -/
theorem exists_row {b : UInt8} {s : LuaString} (hs : ∀ b' ∈ s, IsTail b') {m k : ℕ}
    (hk : s.length + 1 = k + 1) (hm : m ≤ b.toNat) :
    ∃ c, b.toNat = m + c / 64 ^ k ∧ s = (List.range k).reverse.map (tailByte c) := by
  obtain ⟨c, hupper, hgroups⟩ := exists_tailBytes (b.toNat - m) hs
  rw [Nat.succ.inj hk] at hupper hgroups
  exact ⟨c, by omega, hgroups⟩

/-- A whole character has a number, also where a shorter encoding has the same one. -/
theorem encUtf8ToUnicodeOne_of_isCharacter {character : LuaString} (h : IsCharacter character) :
    ∃ c : ℕ, encUtf8ToUnicodeOne character = pure (c : ℤ) := by
  cases character with
  | nil => exact h.elim
  | cons b s =>
    obtain ⟨hbytes, hs⟩ := h
    obtain ⟨hn, hlt⟩ | ⟨hn, hge, hlt⟩ | ⟨hn, hge, hlt⟩ | ⟨hn, hge, hlt⟩ | ⟨hn, hge, hlt⟩ |
      ⟨hn, hge, hlt⟩ := encGetUtf8Bytes_cases (n := s.length + 1) hbytes
    · refine ⟨b.toNat, ?_⟩
      have hone := (encGetUtf8Bytes_eq b.toNat).1 hlt
      simp only [encUtf8ToUnicodeOne, stringByte_one, hone, Int.reduceNeg, Int.reduceEq, reduceIte]
    · obtain ⟨c, hb, rfl⟩ := exists_row hs hn hge
      exact ⟨c, encUtf8ToUnicodeOne_two (by omega) (by omega)⟩
    · obtain ⟨c, hb, rfl⟩ := exists_row hs hn hge
      exact ⟨c, encUtf8ToUnicodeOne_three hb (by omega)⟩
    · obtain ⟨c, hb, rfl⟩ := exists_row hs hn hge
      exact ⟨c, encUtf8ToUnicodeOne_four hb (by omega)⟩
    · obtain ⟨c, hb, rfl⟩ := exists_row hs hn hge
      exact ⟨c, encUtf8ToUnicodeOne_five hb (by omega)⟩
    · obtain ⟨c, hb, rfl⟩ := exists_row hs hn hge
      exact ⟨c, encUtf8ToUnicodeOne_six hb (by omega)⟩

/-- The decoder returns a number. -/
def Returns (x : OptionT (Except LuaError) ℤ) : Prop := ∃ u, x = pure u

theorem Returns.bind {x : OptionT (Except LuaError) ℤ} {f : ℤ → OptionT (Except LuaError) ℤ}
    (h : Returns (x >>= f)) : Returns x ∧ ∃ a, Returns (f a) := by
  obtain ⟨u, h⟩ := h
  have hrun : (x >>= f).run = .ok (some u) := congrArg OptionT.run h
  rw [OptionT.run_bind] at hrun
  match hx : x.run with
  | .error e => rw [hx] at hrun; cases hrun
  | .ok none => rw [hx] at hrun; cases hrun
  | .ok (some a) =>
    rw [hx] at hrun
    exact ⟨⟨a, OptionT.ext hx⟩, a, u, OptionT.ext hrun⟩

/-- The test is passed by the bytes `10xxxxxx` only. -/
theorem isTail_of_returns {character : LuaString} {i : ℕ}
    (h : Returns (furtherByte character (i + 1))) : ∃ b, character[i]? = some b ∧ IsTail b := by
  obtain ⟨u, h⟩ := h
  rw [furtherByte, stringByte, if_neg (Nat.succ_ne_zero i), Nat.add_sub_cancel] at h
  cases hb : character[i]? with
  | none => rw [hb] at h; cases congrArg OptionT.run h
  | some b =>
    refine ⟨b, rfl, (band_mark b.toNat b.toNat_lt).mp ?_⟩
    by_contra hband
    rw [hb] at h
    simp only [Option.map_some] at h
    rw [if_pos hband] at h
    cases congrArg OptionT.run h

/-- The decoder asks for every further byte. -/
theorem returns_furtherByte {b : UInt8} {s : LuaString} {n : ℕ}
    (hbytes : encGetUtf8Bytes b.toNat = n) (h : Returns (encUtf8ToUnicodeOne (b :: s))) :
    ∀ i < n - 1, Returns (furtherByte (b :: s) (i + 2)) := by
  unfold encUtf8ToUnicodeOne at h
  simp only [stringByte_one, hbytes] at h
  obtain ⟨rfl, -⟩ | ⟨rfl, -⟩ | ⟨rfl, -⟩ | ⟨rfl, -⟩ | ⟨rfl, -⟩ | ⟨rfl, -⟩ :=
    encGetUtf8Bytes_cases hbytes
  · intro i hi
    exact absurd hi (Nat.not_lt_zero i)
  all_goals
    simp only [Nat.cast_ofNat, Int.reduceNeg, Int.reduceEq, reduceIte] at h
  · obtain ⟨h₂, -⟩ := h.bind
    intro i hi
    obtain rfl : i = 0 := by omega
    exact h₂
  · obtain ⟨h₂, _, h⟩ := h.bind
    obtain ⟨h₃, -⟩ := h.bind
    intro i hi
    interval_cases i <;> assumption
  · obtain ⟨h₂, _, h⟩ := h.bind
    obtain ⟨h₃, _, h⟩ := h.bind
    obtain ⟨h₄, -⟩ := h.bind
    intro i hi
    interval_cases i <;> assumption
  · obtain ⟨h₂, _, h⟩ := h.bind
    obtain ⟨h₃, _, h⟩ := h.bind
    obtain ⟨h₄, _, h⟩ := h.bind
    obtain ⟨h₅, -⟩ := h.bind
    intro i hi
    interval_cases i <;> assumption
  · obtain ⟨h₂, _, h⟩ := h.bind
    obtain ⟨h₃, _, h⟩ := h.bind
    obtain ⟨h₄, _, h⟩ := h.bind
    obtain ⟨h₅, _, h⟩ := h.bind
    obtain ⟨h₆, -⟩ := h.bind
    intro i hi
    interval_cases i <;> assumption

/-- On what the scan cuts off, the decoder returns a number only for a whole character. -/
theorem isCharacter_of_returns {b : UInt8} {s : LuaString}
    (hcut : ((b :: s).length : ℤ) ≤ encGetUtf8Bytes b.toNat)
    (h : Returns (encUtf8ToUnicodeOne (b :: s))) : IsCharacter (b :: s) := by
  obtain ⟨n, hbytes⟩ : ∃ n : ℕ, encGetUtf8Bytes b.toNat = n := Int.eq_ofNat_of_zero_le (by omega)
  have hfurther : ∀ i < n - 1, ∃ b', s[i]? = some b' ∧ IsTail b' := fun i hi =>
    isTail_of_returns (i := i + 1) (returns_furtherByte hbytes h i hi)
  have hlength : s.length + 1 = n := by
    rw [hbytes, List.length_cons] at hcut
    by_contra hne
    obtain ⟨b', hb', -⟩ := hfurther s.length (by omega)
    rw [List.getElem?_eq_none (Nat.le_refl _)] at hb'
    cases hb'
  refine ⟨by rw [hbytes, ← hlength, Nat.cast_succ], fun b' hb' => ?_⟩
  obtain ⟨i, hi, rfl⟩ := List.mem_iff_getElem.mp hb'
  obtain ⟨b'', hsome, htail⟩ := hfurther i (by omega)
  rw [List.getElem?_eq_getElem hi] at hsome
  exact Option.some.inj hsome ▸ htail

/-- `string.format` has a number where the decoder returns one. -/
theorem formatCharacter_eq_ok_iff {character : LuaString} :
    (∃ unit, formatCharacter character = .ok unit) ↔ Returns (encUtf8ToUnicodeOne character) := by
  unfold formatCharacter
  constructor
  · rintro ⟨unit, h⟩
    split at h
    · cases h
    · cases h
    · next unicode hrun => exact ⟨unicode, OptionT.ext hrun⟩
  · rintro ⟨u, h⟩
    rw [h]
    exact ⟨_, rfl⟩

/-! ## The two scans -/

/-- A round from the border behind `done`. -/
theorem characterScan_cons {α : Type} (convert : LuaString → Except LuaError α) (done : LuaString)
    {b : UInt8} {s : LuaString} {n : ℕ} (hbytes : encGetUtf8Bytes b.toNat = n) (list : List α) :
    characterScan convert (done ++ b :: s) (done.length + 1) list =
      match convert ((b :: s).take n) with
      | .error e => .error e
      | .ok character =>
        characterScan convert (done ++ b :: s) (done.length + n + 1) (list ++ [character]) := by
  have hbyte : stringByte (done ++ b :: s) (done.length + 1) = some (b.toNat : ℤ) :=
    stringByte_append done (b :: s)
  have hsub := stringSub_append done (b :: s) n
  rw [characterScan, dif_pos (by simp), hbyte]
  simp only [hbytes, Int.toNat_natCast, Nat.add_right_comm _ 1 n, Nat.add_sub_cancel, hsub]
  rw [dif_neg (by omega)]

/-- The scan stops at a byte that begins no character. -/
theorem characterScan_stop {α : Type} (convert : LuaString → Except LuaError α) (done : LuaString)
    {b : UInt8} {s : LuaString} (h : encGetUtf8Bytes b.toNat = -1) (list : List α) :
    characterScan convert (done ++ b :: s) (done.length + 1) list =
      .ok (list, done.length + 1) := by
  have hbyte : stringByte (done ++ b :: s) (done.length + 1) = some (b.toNat : ℤ) :=
    stringByte_append done (b :: s)
  rw [characterScan, dif_pos (by simp), hbyte]
  simp only [dif_pos h]

/-- A scan over whole characters ends where it does with any other conversion that is defined on
them, and with a list of the same length. -/
theorem characterScan_characters {α β : Type} {f : LuaString → Except LuaError α}
    {g : LuaString → Except LuaError β} (hf : ∀ c, IsCharacter c → ∃ a, f c = .ok a)
    (hg : ∀ c, IsCharacter c → ∃ a, g c = .ok a) {s : LuaString} (hs : Characters s)
    (done : LuaString) (as : List α) (bs : List β) (hlength : as.length = bs.length) :
    ∃ as' bs' i, characterScan f (done ++ s) (done.length + 1) as = .ok (as', i) ∧
      characterScan g (done ++ s) (done.length + 1) bs = .ok (bs', i) ∧
      as'.length = bs'.length := by
  induction hs generalizing done as bs with
  | nil =>
    refine ⟨as, bs, done.length + 1, ?_, ?_, hlength⟩ <;>
    · rw [characterScan, dif_neg (by simp)]
  | stop h =>
    exact ⟨as, bs, _, characterScan_stop f done h as, characterScan_stop g done h bs, hlength⟩
  | @cons character s h _ ih =>
    obtain ⟨a, ha⟩ := hf character h
    obtain ⟨b, hb⟩ := hg character h
    cases character with
    | nil => exact h.elim
    | cons lead tail =>
      have hnext := ih (done ++ lead :: tail) (as ++ [a]) (bs ++ [b]) (by simp [hlength])
      have htake : (lead :: (tail ++ s)).take (tail.length + 1) = lead :: tail := by
        rw [List.take_succ_cons, List.take_left]
      rw [List.append_assoc, List.length_append, List.length_cons] at hnext
      rw [List.cons_append, characterScan_cons f done (n := tail.length + 1) h.1,
        characterScan_cons g done (n := tail.length + 1) h.1, htake, ha, hb]
      exact hnext

/-- Where the decoding scan returns, it has met whole characters. -/
theorem characters_of_characterScan {s : LuaString} (done : LuaString) (list : List String)
    {r : List String × ℕ}
    (h : characterScan formatCharacter (done ++ s) (done.length + 1) list = .ok r) :
    Characters s := by
  induction hn : s.length using Nat.strong_induction_on generalizing s done list with
  | _ n ih =>
    cases s with
    | nil => exact .nil
    | cons b s =>
      by_cases hstop : encGetUtf8Bytes b.toNat = -1
      · exact .stop hstop
      · have hpos := encGetUtf8Bytes_pos hstop
        obtain ⟨k, hk⟩ : ∃ k : ℕ, encGetUtf8Bytes b.toNat = (k + 1 : ℕ) :=
          ⟨(encGetUtf8Bytes b.toNat).toNat - 1, by omega⟩
        rw [characterScan_cons _ done hk, List.take_succ_cons] at h
        cases hunit : formatCharacter (b :: s.take k) with
        | error e => rw [hunit] at h; cases h
        | ok unit =>
          have hcharacter : IsCharacter (b :: s.take k) := by
            apply isCharacter_of_returns
            · rw [hk, List.length_cons, List.length_take]
              omega
            · exact formatCharacter_eq_ok_iff.mp ⟨unit, hunit⟩
          have hle : (s.take k).length = k := by
            have := hcharacter.1
            omega
          have hsplit : b :: s = (b :: s.take k) ++ s.drop k := by
            rw [List.cons_append, List.take_append_drop]
          have hdone : done.length + (k + 1) + 1 = (done ++ b :: s.take k).length + 1 := by
            rw [List.length_append, List.length_cons, hle]
          rw [hunit, hsplit, ← List.append_assoc, hdone] at h
          rw [hsplit]
          exact .cons hcharacter (ih _ (by simp [← hn]) _ _ h rfl)

/-- `enc_utf8_to_unicode` raises an error on every other string. -/
theorem characters_of_encUtf8ToUnicode {str : LuaString} {units : List String}
    (h : encUtf8ToUnicode str = .ok units) : Characters str := by
  rw [encUtf8ToUnicode_eq, ← map_fst_characterScan] at h
  cases hr : characterScan formatCharacter str 1 [] with
  | error e => rw [hr] at h; cases h
  | ok r => exact characters_of_characterScan [] [] hr

/-- **The two scans agree on whole characters.** `enc_utf8_to_unicode` returns, with as many
elements as `split_utf8_character_list` and with its loop at the same byte, where every character
that the scan cuts off is complete and has the bytes `10xxxxxx` behind its first, and only there. -/
theorem agree_iff_characters (str : LuaString) : Agree str ↔ Characters str := by
  constructor
  · rintro ⟨units, -, -, h, -⟩
    exact characters_of_encUtf8ToUnicode h
  · intro h
    have hformat : ∀ c, IsCharacter c → ∃ unit, formatCharacter c = .ok unit := fun c hc => by
      obtain ⟨n, hn⟩ := encUtf8ToUnicodeOne_of_isCharacter hc
      exact formatCharacter_eq_ok_iff.mpr ⟨n, hn⟩
    obtain ⟨units, characters, i, hscan, hscan', hlength⟩ :=
      characterScan_characters hformat (g := .ok) (fun c _ => ⟨c, rfl⟩) h [] [] [] rfl
    rw [List.nil_append, List.length_nil, Nat.zero_add] at hscan hscan'
    refine ⟨units, characters, i, ?_, ?_, hlength, ?_, ?_⟩
    · rw [encUtf8ToUnicode_eq, ← map_fst_characterScan, hscan]
      rfl
    · rw [splitUtf8CharacterList, ← map_fst_characterScan, hscan']
      rfl
    · rw [hscan]
      rfl
    · rw [hscan']
      rfl

/-- A character whose conversion fails ends the scan with the error. -/
theorem not_agree_of_error {b : UInt8} {s : LuaString} {e : LuaError} {n : ℕ}
    (hn : encGetUtf8Bytes b.toNat = n) (he : formatCharacter ((b :: s).take n) = .error e) :
    ¬ Agree (b :: s) := by
  rintro ⟨units, characters, i, -, -, -, h, -⟩
  have hscan : characterScan formatCharacter (b :: s) 1 [] = _ :=
    characterScan_cons formatCharacter [] hn []
  rw [he] at hscan
  rw [hscan] at h
  cases h

/-- A character of two bytes, cut off behind the first, and one with another second byte. -/
theorem not_agree_malformed : ¬ Agree [0xC3] ∧ ¬ Agree [0xC3, 0x28] :=
  ⟨not_agree_of_error (e := .badArgument 1 "band") (n := 2) (by decide) (by decide +kernel),
    not_agree_of_error (e := .badArgument 2 "format") (n := 2) (by decide) (by decide +kernel)⟩

end CodeTest.Text
