import CodeTest.CppNet.Md5
import CodeTest.Foundations.Absorb

/-!
# The digest of pieces

`MD5Final` after any pieces gives the digest of what they make together: the transform is applied to
the blocks of the padded message, one after the other. `Compute_file_md5` gives that of the first
line of the file only, since `get` stops before the end of the line and does not skip it.
-/

namespace CodeTest.CppNet.Md5

open Absorb

/-- The state and the rest of the last block after a message. -/
def absorbed (msg : List UInt8) : Words × List UInt8 :=
  absorb 64 md5Transform (initialState, []) msg

/-- The message with its padding and its length in bits. -/
def padded (msg : List UInt8) : List UInt8 :=
  msg ++ padding.take
      (if msg.length % 64 < 56 then 56 - msg.length % 64 else 120 - msg.length % 64) ++
    littleEndian 8 (8 * msg.length)

/-- What `MD5_CTX` holds after a message. -/
structure Holds (ctx : Ctx) (msg : List UInt8) : Prop where
  length_buffer : ctx.buffer.length = 64
  count : ctx.count₀.toNat + 2 ^ 32 * ctx.count₁.toNat = 8 * msg.length % 2 ^ 64
  state_eq : ctx.state = (absorbed msg).1
  rest_eq : ctx.buffer.take (msg.length % 64) = (absorbed msg).2

theorem holds_init {buffer : List UInt8} (h : buffer.length = 64) : Holds (md5Init buffer) [] where
  length_buffer := h
  count := rfl
  state_eq := rfl
  rest_eq := rfl

theorem length_absorbed (msg : List UInt8) : (absorbed msg).2.length = msg.length % 64 := by
  have hlen := @length_absorb Words UInt8 64 md5Transform (initialState, []) (by decide) msg
  rwa [List.length_nil, Nat.zero_add] at hlen

theorem absorbed_append (msg input : List UInt8) :
    absorbed (msg ++ input) = absorb 64 md5Transform (absorbed msg) input :=
  absorb_append 64 md5Transform _ msg input

/-! ## The buffer -/

variable {buffer bytes : List UInt8} {index : ℕ}

theorem length_store (h : index + bytes.length ≤ buffer.length) :
    (store buffer index bytes).length = buffer.length := by
  rw [store, List.length_append, List.length_append, List.length_take, List.length_drop]
  omega

theorem take_store (h : index ≤ buffer.length) :
    (store buffer index bytes).take (index + bytes.length) = buffer.take index ++ bytes := by
  rw [store]
  refine List.take_left' ?_
  rw [List.length_append, List.length_take, min_eq_left h]

/-! ## The counter -/

variable {ctx : Ctx} {msg : List UInt8}

/-- The index in the buffer. -/
theorem Holds.index_eq (h : Holds ctx msg) :
    ((ctx.count₀ >>> 3) &&& 0x3F).toNat = msg.length % 64 := by
  have hcount := h.count
  have hlt := ctx.count₀.toNat_lt
  have hand : ctx.count₀.toNat / 2 ^ 3 &&& 63 = ctx.count₀.toNat / 2 ^ 3 % 64 :=
    Nat.and_two_pow_sub_one_eq_mod _ 6
  rw [UInt32.toNat_and, UInt32.toNat_shiftRight]
  show ctx.count₀.toNat >>> 3 &&& 63 = _
  rw [Nat.shiftRight_eq_div_pow, hand]
  omega

/-- The two words of the counter after a piece. -/
theorem count_add (c₀ c₁ : UInt32) {n l : ℕ} (hl : l < 2 ^ 32)
    (h : c₀.toNat + 2 ^ 32 * c₁.toNat = 8 * n % 2 ^ 64) :
    (c₀ + (UInt32.ofNat l <<< 3)).toNat +
        2 ^ 32 * ((if c₀ + (UInt32.ofNat l <<< 3) < UInt32.ofNat l <<< 3 then c₁ + 1 else c₁) +
          (UInt32.ofNat l >>> 29)).toNat = 8 * (n + l) % 2 ^ 64 := by
  have hnat : (UInt32.ofNat l).toNat = l := by
    rw [UInt32.toNat_ofNat']
    exact Nat.mod_eq_of_lt hl
  have hbits : (UInt32.ofNat l <<< 3).toNat = 8 * l % 2 ^ 32 := by
    rw [UInt32.toNat_shiftLeft, hnat]
    show l <<< 3 % 2 ^ 32 = _
    rw [Nat.shiftLeft_eq, Nat.mul_comm]
  have hhigh : (UInt32.ofNat l >>> 29).toNat = l / 2 ^ 29 := by
    rw [UInt32.toNat_shiftRight, hnat]
    exact Nat.shiftRight_eq_div_pow l 29
  have hc₀ := c₀.toNat_lt
  have hc₁ := c₁.toNat_lt
  have hone : (1 : UInt32).toNat = 1 := rfl
  split_ifs with hcarry
  · rw [UInt32.lt_iff_toNat_lt, UInt32.toNat_add, hbits] at hcarry
    rw [UInt32.toNat_add, UInt32.toNat_add, UInt32.toNat_add, hbits, hhigh, hone]
    omega
  · rw [UInt32.lt_iff_toNat_lt, UInt32.toNat_add, hbits] at hcarry
    rw [UInt32.toNat_add, UInt32.toNat_add, hbits, hhigh]
    omega

/-! ## A piece -/

/-- The loop of `MD5Update` absorbs the whole blocks and leaves the rest. -/
theorem transformLoop_spec {input : List UInt8} {fuel i : ℕ} (hi : i ≤ input.length)
    (hfuel : input.length < i + 64 * (fuel + 1)) (state : Words) :
    ∃ j, (transformLoop input fuel i state).2 = j ∧ j ≤ input.length ∧
      absorb 64 md5Transform (state, []) (input.drop i) =
        ((transformLoop input fuel i state).1, input.drop j) := by
  induction fuel generalizing i state with
  | zero =>
    refine ⟨i, rfl, hi, absorb_of_lt ?_⟩
    rw [List.length_nil, List.length_drop]
    omega
  | succ fuel ih =>
    rw [transformLoop]
    by_cases hmore : i + 64 ≤ input.length
    · have hblock : ((input.drop i).take 64).length = 64 := by
        rw [List.length_take, List.length_drop]
        omega
      have hone : absorb 64 md5Transform (state, []) ((input.drop i).take 64) =
          (md5Transform state ((input.drop i).take 64), []) :=
        absorb_of_eq (Nat.succ_pos 63) ((Nat.zero_add _).trans hblock)
      have hsplit : input.drop i = (input.drop i).take 64 ++ input.drop (i + 64) := by
        rw [← List.drop_drop, List.take_append_drop]
      obtain ⟨j, hj, hle, habsorb⟩ :=
        ih hmore (by omega) (md5Transform state ((input.drop i).take 64))
      rw [if_pos hmore]
      refine ⟨j, hj, hle, ?_⟩
      rw [← habsorb, ← hone, ← absorb_append, ← hsplit]
    · rw [if_neg hmore]
      refine ⟨i, rfl, hi, absorb_of_lt ?_⟩
      rw [List.length_nil, List.length_drop]
      omega

theorem Holds.update (h : Holds ctx msg) {input : List UInt8} (hlen : input.length < 2 ^ 32) :
    Holds (md5Update ctx input) (msg ++ input) := by
  have hindex := h.index_eq
  have hcount := count_add ctx.count₀ ctx.count₁ hlen h.count
  have hmod : msg.length % 64 < 64 := Nat.mod_lt _ (by decide)
  have hbuffer := h.length_buffer
  have hrest := length_absorbed msg
  rw [← List.length_append] at hcount
  rw [md5Update, hindex]
  by_cases hfull : 64 - msg.length % 64 ≤ input.length
  · simp only [if_pos hfull]
    set first := store ctx.buffer (msg.length % 64) (input.take (64 - msg.length % 64)) with hfirst
    have htake : (input.take (64 - msg.length % 64)).length = 64 - msg.length % 64 :=
      List.length_take_of_le hfull
    have hlast : first = (absorbed msg).2 ++ input.take (64 - msg.length % 64) := by
      rw [hfirst, store, htake, h.rest_eq, List.drop_eq_nil_of_le (by omega), List.append_nil]
    have hfirst_length : first.length = 64 := by
      rw [hlast, List.length_append, hrest, htake]
      omega
    have hblock : absorb 64 md5Transform (absorbed msg) (input.take (64 - msg.length % 64)) =
        (md5Transform ctx.state first, []) := by
      rw [absorb_of_eq (hrest ▸ hmod) (by rw [hrest, htake]; omega), ← hlast, h.state_eq]
    obtain ⟨j, hj, hle, habsorb⟩ := @transformLoop_spec input input.length
      (64 - msg.length % 64) hfull (by omega) (md5Transform ctx.state first)
    have hall : absorbed (msg ++ input) =
        ((transformLoop input input.length (64 - msg.length % 64)
          (md5Transform ctx.state first)).1, input.drop j) := by
      rw [absorbed_append, ← List.take_append_drop (64 - msg.length % 64) input, absorb_append,
        hblock, List.take_append_drop, habsorb]
    have hdrop : (input.drop j).length = (msg ++ input).length % 64 := by
      rw [← length_absorbed, hall]
    have hsmall : (input.drop j).length < 64 := hdrop ▸ Nat.mod_lt _ (by decide)
    refine ⟨?_, hcount, ?_, ?_⟩
    · rw [hj, length_store (by omega), hfirst_length]
    · rw [hall]
    · have hstore := @take_store first (input.drop j) 0 (Nat.zero_le _)
      rw [Nat.zero_add, List.take_zero, List.nil_append] at hstore
      rw [hj, ← hdrop, hstore, hall]
  · simp only [if_neg hfull]
    have hshort : absorbed (msg ++ input) = ((absorbed msg).1, (absorbed msg).2 ++ input) := by
      rw [absorbed_append]
      exact absorb_of_lt (by rw [hrest]; omega)
    have hnew : (msg ++ input).length % 64 = msg.length % 64 + input.length := by
      rw [← length_absorbed, hshort, List.length_append, hrest]
    refine ⟨?_, hcount, ?_, ?_⟩
    · rw [length_store (by omega), hbuffer]
    · rw [hshort, h.state_eq]
    · rw [hnew, take_store (by omega), h.rest_eq, hshort]

theorem Holds.updates (h : Holds ctx msg) {pieces : List (List UInt8)}
    (hlen : ∀ p ∈ pieces, p.length < 2 ^ 32) :
    Holds (pieces.foldl md5Update ctx) (msg ++ pieces.flatten) := by
  induction pieces generalizing ctx msg with
  | nil =>
    rw [List.flatten_nil, List.append_nil]
    exact h
  | cons p pieces ih =>
    have hnext := ih (h.update (hlen p List.mem_cons_self)) fun x hx =>
      hlen x (List.mem_cons_of_mem p hx)
    rwa [List.append_assoc] at hnext

/-! ## The digest -/

/-- One byte that `MD5Encode` writes. -/
theorem byte_eq {w s : UInt32} {n k : ℕ} (hw : w.toNat = n % 2 ^ 32) (hs : s.toNat = 8 * k)
    (hk : k < 4) : ((w >>> s) &&& 0xFF).toUInt8 = UInt8.ofNat (n / 256 ^ k) := by
  apply UInt8.toNat_inj.mp
  have hshift : 8 * k % 32 = 8 * k := Nat.mod_eq_of_lt (by omega)
  have hand : w.toNat / 2 ^ (8 * k) &&& 255 = w.toNat / 2 ^ (8 * k) % 256 :=
    Nat.and_two_pow_sub_one_eq_mod _ 8
  rw [UInt8.toNat_ofNat', UInt32.toNat_toUInt8, UInt32.toNat_and, UInt32.toNat_shiftRight, hs,
    hshift, Nat.shiftRight_eq_div_pow]
  show (w.toNat / 2 ^ (8 * k) &&& 255) % 256 = n / 256 ^ k % 256
  rw [hand, hw]
  interval_cases k <;> omega

theorem md5Encode_cons {w : UInt32} {n : ℕ} (hw : w.toNat = n % 2 ^ 32) (ws : List UInt32) :
    md5Encode (w :: ws) = littleEndian 4 n ++ md5Encode ws := by
  have hzero : w &&& 0xFF = (w >>> (0 : UInt32)) &&& 0xFF := by rw [UInt32.shiftRight_zero]
  have h₀ := @byte_eq w 0 n 0 hw rfl (by decide)
  have h₁ := @byte_eq w 8 n 1 hw rfl (by decide)
  have h₂ := @byte_eq w 16 n 2 hw rfl (by decide)
  have h₃ := @byte_eq w 24 n 3 hw rfl (by decide)
  have hbytes : littleEndian 4 n = [UInt8.ofNat (n / 256 ^ 0), UInt8.ofNat (n / 256 ^ 1),
      UInt8.ofNat (n / 256 ^ 2), UInt8.ofNat (n / 256 ^ 3)] := by
    norm_num [littleEndian, Nat.div_div_eq_div_mul]
  rw [md5Encode, hzero, h₀, h₁, h₂, h₃, hbytes]
  rfl

/-- The length in bits, as `MD5Final` appends it. -/
theorem Holds.bits_eq (h : Holds ctx msg) :
    md5Encode [ctx.count₀, ctx.count₁] = littleEndian 8 (8 * msg.length) := by
  have hcount := h.count
  have hc₀ := ctx.count₀.toNat_lt
  have hc₁ := ctx.count₁.toNat_lt
  have hlow : ctx.count₀.toNat = 8 * msg.length % 2 ^ 32 := by omega
  have hhigh : ctx.count₁.toNat = 8 * msg.length / 256 ^ 4 % 2 ^ 32 := by omega
  rw [md5Encode_cons hlow, md5Encode_cons hhigh, littleEndian_add 4 4]
  exact congrArg _ (List.append_nil _)

/-- The digest that a state stands for. -/
def digest (state : Words) : List UInt8 := md5Encode [state.a, state.b, state.c, state.d]

theorem Holds.final (h : Holds ctx msg) : md5Final ctx = digest (absorbed (padded msg)).1 := by
  have hpad := @Holds.update ctx msg h (padding.take
    (if msg.length % 64 < 56 then 56 - msg.length % 64 else 120 - msg.length % 64))
    ((List.length_take_le' _ _).trans_lt (by decide))
  have hall := hpad.update (show (littleEndian 8 (8 * msg.length)).length < 2 ^ 32 by
    rw [length_littleEndian]; decide)
  rw [md5Final, h.index_eq, h.bits_eq]
  rw [← padded] at hall
  rw [digest, ← hall.state_eq]

theorem length_padded (msg : List UInt8) : 64 ∣ (padded msg).length := by
  have hpadding : padding.length = 64 := rfl
  rw [padded, List.length_append, List.length_append, List.length_take, length_littleEndian,
    hpadding]
  split_ifs with hlt
  · rw [min_eq_left (by omega)]
    omega
  · rw [min_eq_left (by omega)]
    omega

/-- The digest of a message: the transform goes through the blocks of the padded message. -/
def md5 (msg : List UInt8) : List UInt8 :=
  digest ((blocks 64 (padded msg)).foldl md5Transform initialState)

theorem Holds.final_eq (h : Holds ctx msg) : md5Final ctx = md5 msg := by
  rw [h.final, absorbed, absorb_blocks (Nat.succ_pos 63) (length_padded msg)]
  rfl

/-- **Where the data are cut makes no difference.** After any pieces, each of fewer than 2³² - 64
bytes, the digest is that of what they make together. -/
theorem digest_of_pieces (buffer : List UInt8) (hbuffer : buffer.length = 64)
    (pieces : List (List UInt8)) (hlen : ∀ p ∈ pieces, p.length < 2 ^ 32 - 64) :
    md5Final (pieces.foldl md5Update (md5Init buffer)) = md5 pieces.flatten :=
  ((holds_init hbuffer).updates fun p hp => (hlen p hp).trans (by decide)).final_eq

/-- Two pieces. -/
theorem digest_of_pieces_two :
    md5Final ([[97, 98], [99]].foldl md5Update (md5Init (List.replicate 64 0))) =
      md5 [97, 98, 99] :=
  digest_of_pieces (List.replicate 64 0) rfl [[97, 98], [99]] (by decide)

/-! ## A file -/

theorem takeWhile_drop {p : UInt8 → Bool} {l : List UInt8} {k : ℕ}
    (h : k ≤ (l.takeWhile p).length) : (l.drop k).takeWhile p = (l.takeWhile p).drop k := by
  induction l generalizing k with
  | nil => rw [List.drop_nil, List.takeWhile_nil, List.drop_nil]
  | cons a l ih =>
    cases k with
    | zero => rfl
    | succ k =>
      by_cases ha : p a = true
      · rw [List.takeWhile_cons_of_pos ha, List.length_cons] at h
        rw [List.drop_succ_cons, List.takeWhile_cons_of_pos ha, List.drop_succ_cons,
          ih (Nat.le_of_succ_le_succ h)]
      · rw [List.takeWhile_cons_of_neg ha] at h
        exact absurd h (Nat.not_succ_le_zero k)

/-- What the loop of `Compute_file_md5` hands to `MD5Update` is the rest of the line. -/
theorem Holds.readLoop (h : Holds ctx msg) {fuel : ℕ} {file : List UInt8}
    (hfuel : file.length < fuel) :
    Holds (readLoop fuel ctx file) (msg ++ file.takeWhile (· ≠ 10)) := by
  induction fuel generalizing ctx msg file with
  | zero => exact absurd hfuel (Nat.not_lt_zero _)
  | succ fuel ih =>
    set line := file.takeWhile (· ≠ 10) with hline
    have hget : get file = (line.take 1023, file.drop (line.take 1023).length) := rfl
    have hle : (line.take 1023).length ≤ line.length := List.length_take_le' _ _
    rw [Md5.readLoop, hget]
    by_cases hempty : line.take 1023 = []
    · have hnil : line = [] := by
        rcases List.take_eq_nil_iff.mp hempty with habs | hnil
        · exact absurd habs (by decide)
        · exact hnil
      simp only [if_pos hempty]
      rw [hnil, List.append_nil]
      exact h
    · simp only [if_neg hempty]
      have hpos : 0 < (line.take 1023).length := List.length_pos_iff.mpr hempty
      have hshort : (line.take 1023).length ≤ 1023 := List.length_take_le _ _
      have hlength : line.length ≤ file.length := (List.takeWhile_prefix _).length_le
      have hlater : (file.drop (line.take 1023).length).takeWhile (· ≠ 10) = line.drop 1023 := by
        rw [takeWhile_drop (by exact hle), ← hline]
        by_cases hlong : 1023 ≤ line.length
        · rw [List.length_take_of_le hlong]
        · rw [List.take_of_length_le (by omega), List.drop_length,
            List.drop_eq_nil_of_le (by omega)]
      have hnext := @ih (md5Update ctx (line.take 1023)) (msg ++ line.take 1023)
        (h.update (hshort.trans_lt (by decide))) (file.drop (line.take 1023).length)
        (by rw [List.length_drop]; omega)
      rwa [hlater, List.append_assoc, List.take_append_drop] at hnext

/-- **Only the first line of a file is digested.** -/
theorem first_line_digested (buffer : List UInt8) (hbuffer : buffer.length = 64)
    (content : List UInt8) :
    computeFileMd5 buffer (some content) =
      some (md5Str (md5 (content.takeWhile (· ≠ 10)))) := by
  have hloop := (holds_init hbuffer).readLoop (Nat.lt_succ_self content.length)
  rw [computeFileMd5, Option.map_some, hloop.final_eq]
  rfl

/-- A file of three lines. -/
theorem first_line_digested_three :
    computeFileMd5 (List.replicate 64 0) (some [97, 98, 99, 10, 100, 10, 101]) =
      some (md5Str (md5 ([97, 98, 99, 10, 100, 10, 101].takeWhile (· ≠ 10)))) :=
  first_line_digested (List.replicate 64 0) rfl [97, 98, 99, 10, 100, 10, 101]

/-- The digest of `abc` that is widely known. -/
example : md5Str (md5Final (md5Update (md5Init (List.replicate 64 0)) [97, 98, 99])) =
    "900150983cd24fb0d6963f7d28e17f72".toList := by decide +kernel

end CodeTest.CppNet.Md5
