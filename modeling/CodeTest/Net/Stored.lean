import CodeTest.Foundations.Framing
import CodeTest.Net.LoopBuffer

/-!
# What a loop buffer stores

`Holds b q` says that the buffer `b` stores exactly the bytes `q`, in order, and that it is not
completely full: the bytes are the window of the block from the read pointer to the write pointer.
Equal pointers mean an empty buffer, so a full one cannot be told from an empty one and is not
covered. Each operation has one lemma here, and the rest of the development uses only these.
-/

namespace CodeTest.Net

open Circular

/-- The bytes that the pointers of the buffer say it stores, oldest first. -/
def CLoopBuffer.stored (b : CLoopBuffer) : List UInt8 :=
  window b.mallocRealSize b.mem b.readPtr b.getReadableSize.toNat

/-- The buffer stores the bytes `q` and has room for at least one more. -/
structure Holds (b : CLoopBuffer) (q : List UInt8) : Prop where
  read_nonneg : 0 ≤ b.readPtr
  read_lt : b.readPtr < b.mallocRealSize
  room : q.length < b.mallocRealSize
  write_eq : b.writePtr = turn b.mallocRealSize b.readPtr q.length
  bytes : window b.mallocRealSize b.mem b.readPtr q.length = q

namespace Holds

open CLoopBuffer Framing

variable {b : CLoopBuffer} {q : List UInt8}

theorem new (junk : ℤ → UInt8) {N : ℕ} (hN : 0 < N) : Holds (CLoopBuffer.new junk N) [] where
  read_nonneg := le_rfl
  read_lt := by simpa [CLoopBuffer.new, mallocStartPtr] using hN
  room := hN
  write_eq := by simp [CLoopBuffer.new, mallocStartPtr, turn, hN]
  bytes := rfl

theorem reset (h : Holds b q) : Holds b.reset [] :=
  new b.mem (lt_of_le_of_lt (Nat.zero_le _) h.room)

theorem getReadableSize (h : Holds b q) : b.getReadableSize = q.length := by
  have h₀ := h.read_nonneg
  have h₁ := h.read_lt
  have h₂ := h.room
  unfold CLoopBuffer.getReadableSize mallocEndPtr mallocStartPtr
  rw [h.write_eq]
  unfold turn
  split_ifs <;> omega

theorem getWriteableSize (h : Holds b q) :
    b.getWriteableSize = b.mallocRealSize - q.length := by
  have h₀ := h.read_nonneg
  have h₁ := h.read_lt
  have h₂ := h.room
  unfold CLoopBuffer.getWriteableSize mallocEndPtr mallocStartPtr
  rw [h.write_eq]
  unfold turn
  split_ifs <;> omega

theorem stored (h : Holds b q) : b.stored = q := by
  rw [CLoopBuffer.stored, h.getReadableSize, Int.toNat_natCast, h.bytes]

/-! ## Writing -/

/-- The memory after a `Write` that is not refused: the window is extended by the content. It is
stated also for a content that fills the buffer. -/
theorem window_write (h : Holds b q) {content : List UInt8}
    (hfit : q.length + content.length ≤ b.mallocRealSize) :
    (b.write content).1 = true ∧
      (b.write content).2.readPtr = b.readPtr ∧
      (b.write content).2.mallocRealSize = b.mallocRealSize ∧
      (b.write content).2.writePtr =
        turn b.mallocRealSize b.readPtr (q.length + content.length) ∧
      window b.mallocRealSize (b.write content).2.mem b.readPtr (q.length + content.length) =
        q ++ content := by
  have h₀ := h.read_nonneg
  have h₁ := h.read_lt
  have h₂ := h.room
  have hw := h.write_eq
  have hw₀ : 0 ≤ b.writePtr := by rw [hw]; exact turn_nonneg h₀ (by omega)
  have hwN : b.writePtr < b.mallocRealSize := by rw [hw]; exact turn_lt h₁ (by omega)
  have hroom := h.getWriteableSize
  have hbytes := h.bytes
  unfold CLoopBuffer.write
  simp only [hroom, mallocEndPtr, mallocStartPtr, zero_add]
  rw [if_neg (by omega)]
  split_ifs with hend
  · -- the content reaches the end of the block: two copies
    set k := (b.mallocRealSize - 1 - b.writePtr + 1).toNat with hk
    have hk' : (k : ℤ) = b.mallocRealSize - b.writePtr := by omega
    have hlen : (content.take k).length = k := by rw [List.length_take]; omega
    have hlast : turn b.mallocRealSize b.readPtr (q.length + k : ℕ) = 0 := by
      rw [hw] at hk'
      unfold turn at hk' ⊢
      split_ifs at hk' ⊢ <;> omega
    have hfirst := window_blit_append b.mem h₁ (m := q.length) (content.take k)
      (by rw [hlen]; omega) (by rw [hlen, ← hw]; omega)
    have hsecond := window_blit_append (blit b.mem b.writePtr (content.take k)) h₁
      (m := q.length + k) (content.drop k) (by rw [List.length_drop]; push_cast; omega)
      (by rw [hlast, List.length_drop]; omega)
    rw [hlen, ← hw, hbytes] at hfirst
    rw [hlast, hfirst, List.append_assoc, List.take_append_drop] at hsecond
    refine ⟨rfl, rfl, rfl, ?_, ?_⟩
    · simp only
      rw [hw] at hend hk' ⊢
      unfold turn at hend hk' ⊢
      split_ifs at hend hk' ⊢ <;> omega
    · have : q.length + content.length = q.length + k + (content.drop k).length := by
        rw [List.length_drop]; omega
      rw [this]
      exact hsecond
  · have hcopy := window_blit_append b.mem h₁ (m := q.length) content (by omega)
      (by rw [← hw]; omega)
    rw [← hw, hbytes] at hcopy
    refine ⟨rfl, rfl, rfl, ?_, hcopy⟩
    simp only
    rw [hw] at hend ⊢
    unfold turn at hend ⊢
    split_ifs at hend ⊢ <;> omega

/-- A content that leaves room is stored behind what was there. -/
theorem write (h : Holds b q) {content : List UInt8}
    (hfit : q.length + content.length < b.mallocRealSize) :
    (b.write content).1 = true ∧ Holds (b.write content).2 (q ++ content) ∧
      (b.write content).2.mallocRealSize = b.mallocRealSize := by
  obtain ⟨hok, hr, hN, hw, hmem⟩ := h.window_write hfit.le
  refine ⟨hok, ⟨?_, ?_, ?_, ?_, ?_⟩, hN⟩
  · rw [hr]; exact h.read_nonneg
  · rw [hr, hN]; exact h.read_lt
  · rw [hN, List.length_append]; exact hfit
  · rw [hN, hr, hw, List.length_append, Nat.cast_add]
  · rw [hN, hr, List.length_append, hmem]

/-- A content that is larger than the room is refused and changes nothing. -/
theorem write_refused (h : Holds b q) {content : List UInt8}
    (hbig : b.mallocRealSize < q.length + content.length) : b.write content = (false, b) := by
  unfold CLoopBuffer.write
  rw [if_pos (by rw [h.getWriteableSize]; omega)]

/-- A content that fills the buffer to its last byte is accepted, and the buffer then counts as
empty: the write pointer has come round to the read pointer. -/
theorem write_full (h : Holds b q) {content : List UInt8} (hne : content ≠ [])
    (hfull : q.length + content.length = b.mallocRealSize) :
    (b.write content).1 = true ∧ (b.write content).2.getReadableSize = 0 ∧
      (b.write content).2.stored = [] := by
  obtain ⟨hok, hr, -, hw, -⟩ := h.window_write hfull.le
  have h₀ := h.read_nonneg
  have hpos := List.length_pos_iff.mpr hne
  have hback : turn b.mallocRealSize b.readPtr (q.length + content.length) = b.readPtr :=
    (turn_eq_self h₀ h.read_lt (by omega)).mpr (Or.inr (by omega))
  have hempty : (b.write content).2.getReadableSize = 0 := by
    unfold CLoopBuffer.getReadableSize
    rw [if_pos (Or.inr (by rw [hr, hw, hback])), hr, hw, hback, sub_self]
  exact ⟨hok, hempty, by rw [CLoopBuffer.stored, hempty, Int.toNat_zero, window_zero]⟩

/-! ## Reading -/

/-- A `Read` of no more than is stored returns the oldest bytes and removes them. -/
theorem read (h : Holds b q) {size : ℕ} (hsize : size ≤ q.length) :
    ((b.read size).1.getD []) = q.take size ∧ Holds (b.read size).2 (q.drop size) ∧
      (b.read size).2.mallocRealSize = b.mallocRealSize := by
  have h₀ := h.read_nonneg
  have h₁ := h.read_lt
  have h₂ := h.room
  have hbytes := h.bytes
  have htake : window b.mallocRealSize b.mem b.readPtr size = q.take size := by
    rw [← hbytes, take_window _ _ h₁ (by simpa using hsize) (by simpa using h₂.le)]
  have hmove : ∀ b' : CLoopBuffer, b'.mem = b.mem → b'.mallocRealSize = b.mallocRealSize →
      b'.writePtr = b.writePtr → b'.readPtr = turn b.mallocRealSize b.readPtr size →
      Holds b' (q.drop size) := by
    intro b' hmem hN hw hr
    refine ⟨?_, ?_, ?_, ?_, ?_⟩
    · rw [hr]; exact turn_nonneg h₀ (by omega)
    · rw [hr, hN]; exact turn_lt h₁ (by omega)
    · rw [hN, List.length_drop]; omega
    · rw [hw, hN, hr, h.write_eq, turn_turn h₁ (by omega) (by rw [List.length_drop]; omega),
        List.length_drop]
      congr 1
      omega
    · rw [hN, hmem, hr, List.length_drop, ← drop_window _ _ h₁ hsize (by omega), hbytes]
  unfold CLoopBuffer.read
  simp only [h.getReadableSize, mallocEndPtr, mallocStartPtr, zero_add]
  split_ifs with hnone hend
  · -- nothing stored, so nothing was asked for
    obtain rfl : q = [] := List.length_eq_zero_iff.mp (by omega)
    exact ⟨by simp, by simpa using h, rfl⟩
  · refine ⟨?_, hmove _ rfl rfl rfl ?_, rfl⟩
    · rw [Option.getD_some, ← htake, window_eq_slice _ _ (by omega)]
    · simp only
      rw [turn, if_pos (by omega)]
  · refine ⟨?_, hmove _ rfl rfl rfl ?_, rfl⟩
    · rw [Option.getD_some, ← htake, window_eq_slice_append _ h₁ (by omega) (by omega)]
      congr 2 <;> omega
    · simp only
      unfold turn
      split_ifs <;> omega

/-! ## The size of the first message -/

/-- A scan returns at the first NUL of the bytes it goes over, or has counted them all. -/
theorem scanNul_eq (mem : ℤ → UInt8) (p : ℤ) (n size : ℕ) :
    scanNul mem p n size =
      if 0 ∈ slice mem p n then .inl (size + frameSize 0 (slice mem p n)) else .inr (size + n) := by
  induction n generalizing p size with
  | zero => simp [scanNul]
  | succ n ih =>
    rw [slice_succ, scanNul]
    by_cases h : mem p = 0
    · simp [h, frameSize]
    · have hsize := frameSize_append_of_not_mem (m := [mem p]) (d := 0) (by simpa using Ne.symm h)
        (slice mem (p + 1) n)
      rw [List.singleton_append, List.length_singleton] at hsize
      rw [if_neg h, hsize, ih]
      simp only [List.mem_cons, Ne.symm h, false_or, Nat.add_assoc, Nat.add_comm 1 n]

/-- `GetReadSize` is the size of the first message stored, with its NUL, or of everything when there
is no NUL. -/
theorem getReadSize (h : Holds b q) : b.getReadSize = frameSize 0 q := by
  have h₀ := h.read_nonneg
  have h₁ := h.read_lt
  have h₂ := h.room
  have hw := h.write_eq
  have hbytes := h.bytes
  unfold CLoopBuffer.getReadSize
  simp only [h.getReadableSize, mallocEndPtr, mallocStartPtr, zero_add, Int.toNat_natCast]
  split_ifs with hnone hstraight
  · obtain rfl : q = [] := List.length_eq_zero_iff.mp (by omega)
    rfl
  · have hq : slice b.mem b.readPtr q.length = q := by
      rw [← window_eq_slice b.mallocRealSize, hbytes]
      rw [hw] at hstraight
      unfold turn at hstraight
      split_ifs at hstraight <;> omega
    rw [scanNul_eq, hq]
    by_cases hnul : 0 ∈ q
    · simp [hnul]
    · simp [hnul, frameSize_of_not_mem hnul]
  · -- the bytes go round the end of the block: the two scans are over the two slices
    have hwrap : b.mallocRealSize ≤ b.readPtr + q.length ∧
        b.readPtr + q.length - b.mallocRealSize = b.writePtr := by
      rw [hw] at hstraight ⊢
      unfold turn at hstraight ⊢
      split_ifs at hstraight ⊢ <;> omega
    have hq := window_eq_slice_append b.mem h₁ hwrap.1 (by omega)
    rw [hbytes, hwrap.2] at hq
    have hend : ((b.mallocRealSize : ℤ) - 1 - b.readPtr + 1).toNat =
        ((b.mallocRealSize : ℤ) - b.readPtr).toNat := by omega
    rw [hend, Int.sub_zero, scanNul_eq, hq]
    by_cases hnul : 0 ∈ slice b.mem b.readPtr (b.mallocRealSize - b.readPtr).toNat
    · simp only [if_pos hnul, frameSize_append_of_mem hnul, Nat.zero_add]
    · simp only [if_neg hnul, frameSize_append_of_not_mem hnul, scanNul_eq, length_slice,
        Nat.zero_add]
      by_cases hnul' : 0 ∈ slice b.mem 0 b.writePtr.toNat
      · simp only [if_pos hnul']
      · simp only [if_neg hnul', frameSize_of_not_mem hnul', length_slice]

end Holds

end CodeTest.Net
