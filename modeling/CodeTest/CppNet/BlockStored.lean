import CodeTest.CppNet.BufferBlock

/-!
# What a buffer block stores

A valid block has its two points in the block or at its end, and that is all the operations need:
the bytes stored are the window from the read point of the length `GetCanReadLength()`, the free
places are those behind it, and the flag tells full from empty where the points are equal. Each
operation has one lemma, in terms of `stored`; the rest of the development uses only these.
-/

namespace CodeTest.CppNet

open Circular

namespace BufferBlock

/-- The points stand in the block or at its end. -/
structure Valid (b : BufferBlock) : Prop where
  pos : 0 < b.totalSize
  read_nonneg : 0 ≤ b.readPt
  read_le : b.readPt ≤ b.totalSize
  write_nonneg : 0 ≤ b.writePt
  write_le : b.writePt ≤ b.totalSize

/-- The bytes the block stores, oldest first. -/
def stored (b : BufferBlock) : List UInt8 :=
  window b.totalSize b.mem (place b.totalSize b.readPt) b.getCanReadLength

variable {b : BufferBlock}

@[simp] theorem bufferEnd_eq (b : BufferBlock) : b.bufferEnd = b.totalSize := by
  simp [bufferEnd, bufferStart]

theorem length_stored (b : BufferBlock) : b.stored.length = b.getCanReadLength := by simp [stored]

theorem stored_eq_nil : b.stored = [] ↔ b.getCanReadLength = 0 := by
  rw [← List.length_eq_zero_iff, length_stored]

namespace Valid

theorem new (junk : ℤ → UInt8) {N : ℕ} (hN : 0 < N) : (BufferBlock.new junk N).Valid :=
  ⟨hN, le_rfl, Int.natCast_nonneg _, le_rfl, Int.natCast_nonneg _⟩

theorem clear (h : b.Valid) : b.clear.Valid := new b.mem h.pos

theorem getCanReadLength_le (h : b.Valid) : b.getCanReadLength ≤ b.totalSize := by
  obtain ⟨h₀, h₁, h₂, h₃, h₄⟩ := h
  unfold BufferBlock.getCanReadLength
  simp only [bufferEnd_eq, bufferStart]
  split_ifs <;> omega

theorem getCanWriteLength (h : b.Valid) :
    b.getCanWriteLength = b.totalSize - b.getCanReadLength := by
  obtain ⟨h₀, h₁, h₂, h₃, h₄⟩ := h
  unfold BufferBlock.getCanWriteLength BufferBlock.getCanReadLength
  simp only [bufferEnd_eq, bufferStart]
  split_ifs <;> omega

/-- In a block that is not full the write point stands behind the last byte stored. -/
theorem place_writePt (h : b.Valid) (hroom : b.getCanReadLength < b.totalSize) :
    place b.totalSize b.writePt = turn b.totalSize (place b.totalSize b.readPt)
      b.getCanReadLength := by
  obtain ⟨h₀, h₁, h₂, h₃, h₄⟩ := h
  revert hroom
  unfold BufferBlock.getCanReadLength
  simp only [bufferEnd_eq, bufferStart]
  split_ifs <;> intro hroom <;> unfold place turn <;> split_ifs <;> omega

/-- In a full block the two points stand at one place. -/
theorem place_writePt_of_full (h : b.Valid) (hfull : b.getCanReadLength = b.totalSize) :
    place b.totalSize b.writePt = place b.totalSize b.readPt := by
  obtain ⟨h₀, h₁, h₂, h₃, h₄⟩ := h
  revert hfull
  unfold BufferBlock.getCanReadLength
  simp only [bufferEnd_eq, bufferStart]
  split_ifs <;> intro hfull <;> unfold place <;> split_ifs <;> omega

theorem place_readPt (h : b.Valid) :
    0 ≤ place b.totalSize b.readPt ∧ place b.totalSize b.readPt < b.totalSize :=
  ⟨place_nonneg h.read_nonneg, place_lt (by exact_mod_cast h.pos) h.read_le⟩

end Valid

@[simp] theorem stored_new (junk : ℤ → UInt8) (N : ℕ) : (BufferBlock.new junk N).stored = [] := by
  simp [stored_eq_nil, BufferBlock.new, getCanReadLength]

@[simp] theorem stored_clear (b : BufferBlock) : b.clear.stored = [] := stored_new b.mem b.totalSize

/-! ## Moving a point -/

/-- Moving the read point over `m` stored bytes drops them. -/
theorem Valid.stored_drop (h : b.Valid) {b' : BufferBlock} {m : ℕ} (hmem : b'.mem = b.mem)
    (hN : b'.totalSize = b.totalSize) (hm : m ≤ b.getCanReadLength)
    (hread : place b.totalSize b'.readPt = turn b.totalSize (place b.totalSize b.readPt) m)
    (hlen : b'.getCanReadLength = b.getCanReadLength - m) : b'.stored = b.stored.drop m := by
  rw [stored, stored, hmem, hN, hread, hlen, drop_window _ _ h.place_readPt.2 hm]
  exact_mod_cast h.getCanReadLength_le

/-- Moving the write point back over `m` stored bytes drops them from the end. -/
theorem Valid.stored_take (h : b.Valid) {b' : BufferBlock} {m : ℕ} (hmem : b'.mem = b.mem)
    (hN : b'.totalSize = b.totalSize) (hread : b'.readPt = b.readPt)
    (hlen : b'.getCanReadLength = b.getCanReadLength - m) :
    b'.stored = b.stored.take (b.getCanReadLength - m) := by
  rw [stored, stored, hmem, hN, hread, hlen, take_window _ _ h.place_readPt.2 (Nat.sub_le _ _)]
  exact_mod_cast h.getCanReadLength_le

/-! ## The three shapes of a block -/

theorem getCanReadLength_of_lt (h : b.readPt < b.writePt) :
    b.getCanReadLength = (b.writePt - b.readPt).toNat := if_pos h

theorem getCanReadLength_of_empty (h : b.canRead = false ∧ b.readPt = b.writePt) :
    b.getCanReadLength = 0 := by
  unfold getCanReadLength
  rw [if_neg (by omega), if_neg (by omega), h.1]
  rfl

theorem getCanReadLength_of_full (h : b.canRead = true ∧ b.readPt = b.writePt) :
    b.getCanReadLength = b.totalSize := by
  unfold getCanReadLength
  rw [if_neg (by omega), if_neg (by omega), h.1]
  rfl

/-- There is room behind the write point. -/
theorem getCanReadLength_of_le (hle : b.readPt ≤ b.writePt)
    (hne : ¬ (b.canRead = true ∧ b.readPt = b.writePt)) :
    b.getCanReadLength = (b.writePt - b.readPt).toNat := by
  rcases hle.lt_or_eq with hlt | heq
  · exact getCanReadLength_of_lt hlt
  · rw [getCanReadLength_of_empty ⟨by simpa [heq] using hne, heq⟩]
    omega

/-- The bytes go round the end of the block, or the block is full. -/
theorem Valid.getCanReadLength_of_wrap (h : b.Valid) (hle : ¬ b.readPt < b.writePt)
    (hne : ¬ (b.canRead = false ∧ b.readPt = b.writePt)) :
    b.getCanReadLength = b.writePt.toNat + (b.totalSize - b.readPt).toNat := by
  obtain ⟨h₀, h₁, h₂, h₃, h₄⟩ := h
  unfold getCanReadLength
  simp only [bufferEnd_eq, bufferStart]
  rw [if_neg hle]
  split_ifs with hlt hfull
  · omega
  · omega
  · exact absurd ⟨by simpa using hfull, by omega⟩ hne

/-- The oldest bytes stored, in straight copies. -/
theorem Valid.take_stored (h : b.Valid) {len m : ℕ} (hm : m = min len b.getCanReadLength) :
    b.stored.take len = slice b.mem b.readPt (min m (b.totalSize - b.readPt).toNat) ++
      slice b.mem 0 (m - (b.totalSize - b.readPt).toNat) := by
  have hle := h.getCanReadLength_le
  have htake : b.stored.take len = b.stored.take m := by
    rw [List.take_eq_take_min, length_stored, ← hm]
  rw [htake, stored, take_window _ _ h.place_readPt.2 (by omega) (by exact_mod_cast hle),
    window_place _ (by exact_mod_cast h.pos) h.read_le (by omega)]

/-! ## Reading -/

/-- The bytes that `_Read` puts out. -/
theorem Valid.readMem_fst (h : b.Valid) (len : ℕ) (movePt : Bool) :
    (b.readMem len movePt).1 = b.stored.take len := by
  obtain ⟨h₀, h₁, h₂, h₃, h₄⟩ := id h
  unfold readMem
  simp only [bufferEnd_eq, bufferStart, sub_zero, apply_ite Prod.fst]
  split_ifs with hlt hall hempty hall hfits
  · rw [h.take_stored (show (b.writePt - b.readPt).toNat = _ by
      rw [getCanReadLength_of_lt hlt, min_eq_right hall])]
    rw [min_eq_left (by omega), Nat.sub_eq_zero_of_le (by omega), slice_zero, List.append_nil]
  · rw [h.take_stored (show len = _ by rw [getCanReadLength_of_lt hlt]; omega)]
    rw [min_eq_left (by omega), Nat.sub_eq_zero_of_le (by omega), slice_zero, List.append_nil]
  · rw [stored_eq_nil.mpr (getCanReadLength_of_empty hempty), List.take_nil]
  · rw [h.take_stored (show b.writePt.toNat + (b.totalSize - b.readPt).toNat = _ by
      rw [h.getCanReadLength_of_wrap hlt hempty, min_eq_right hall])]
    rw [min_eq_right (by omega), Nat.add_sub_cancel]
  · rw [h.take_stored (show len = _ by rw [h.getCanReadLength_of_wrap hlt hempty]; omega)]
    rw [min_eq_left hfits, Nat.sub_eq_zero_of_le hfits, slice_zero, List.append_nil]
  · rw [h.take_stored (show len = _ by rw [h.getCanReadLength_of_wrap hlt hempty]; omega)]
    rw [min_eq_right (by omega)]

theorem Valid.readNotMovePt (h : b.Valid) (len : ℕ) :
    b.readNotMovePt len = b.stored.take len := h.readMem_fst len false

/-- The three ways in which an operation consumes bytes: it leaves the block as it is, it clears
the block, or it moves the read point within the bytes stored. -/
theorem Valid.consume (h : b.Valid) {b' : BufferBlock} {m : ℕ} {r : ℤ}
    (hb' : m = 0 ∧ b' = b ∨ m = b.getCanReadLength ∧ b' = b.clear ∨
      m < b.getCanReadLength ∧ b' = { b with readPt := r } ∧
        r = (if b.readPt + m ≤ b.totalSize then b.readPt + m else b.readPt + m - b.totalSize)) :
    b'.Valid ∧ b'.totalSize = b.totalSize ∧ b'.stored = b.stored.drop m := by
  obtain ⟨rfl, rfl⟩ | ⟨rfl, rfl⟩ | ⟨hm, rfl, hr⟩ := hb'
  · exact ⟨h, rfl, rfl⟩
  · exact ⟨h.clear, rfl, by simp [length_stored]⟩
  · have hN := h.getCanReadLength_le
    obtain ⟨h₀, h₁, h₂, h₃, h₄⟩ := id h
    have hvalid : BufferBlock.Valid { b with readPt := r } := by
      refine ⟨h₀, ?_, ?_, h₃, h₄⟩ <;> simp only [hr] <;> split_ifs <;> omega
    refine ⟨hvalid, rfl, h.stored_drop rfl rfl hm.le ?_ ?_⟩
    · simp only [hr]
      unfold place turn
      split_ifs <;> omega
    · revert hm hr
      unfold BufferBlock.getCanReadLength
      simp only [bufferEnd_eq, bufferStart]
      split_ifs <;> omega

/-- `Read` puts out the oldest bytes and removes them. -/
theorem Valid.read (h : b.Valid) (len : ℕ) :
    (b.read len).1 = b.stored.take len ∧ (b.read len).2.Valid ∧
      (b.read len).2.totalSize = b.totalSize ∧ (b.read len).2.stored = b.stored.drop len := by
  refine ⟨h.readMem_fst len true, ?_⟩
  rw [b.stored.drop_eq_drop_min, length_stored]
  unfold BufferBlock.read readMem
  simp only [bufferEnd_eq, bufferStart, sub_zero, apply_ite Prod.snd, if_true]
  have hwrap := h.getCanReadLength_of_wrap
  obtain ⟨h₀, h₁, h₂, h₃, h₄⟩ := id h
  split_ifs with hlt hall hempty hall hfits
  · have hlen := getCanReadLength_of_lt hlt
    exact h.consume (r := 0) (Or.inr (Or.inl ⟨by omega, rfl⟩))
  · have hlen := getCanReadLength_of_lt hlt
    refine h.consume (Or.inr (Or.inr ⟨by omega, rfl, ?_⟩))
    split_ifs <;> omega
  · have hlen := getCanReadLength_of_empty hempty
    exact h.consume (r := 0) (Or.inl ⟨by omega, rfl⟩)
  · have hlen := hwrap hlt hempty
    exact h.consume (r := 0) (Or.inr (Or.inl ⟨by omega, rfl⟩))
  · have hlen := hwrap hlt hempty
    refine h.consume (Or.inr (Or.inr ⟨by omega, rfl, ?_⟩))
    split_ifs <;> omega
  · have hlen := hwrap hlt hempty
    refine h.consume (Or.inr (Or.inr ⟨by omega, rfl, ?_⟩))
    split_ifs <;> omega

/-- `MoveReadPt` forward removes the oldest bytes and says how many. -/
theorem Valid.moveReadPt (h : b.Valid) {len : ℤ} (hpos : 0 < len) :
    (b.moveReadPt len).1 = min len b.stored.length ∧ (b.moveReadPt len).2.Valid ∧
      (b.moveReadPt len).2.totalSize = b.totalSize ∧
      (b.moveReadPt len).2.stored = b.stored.drop len.toNat := by
  rw [b.stored.drop_eq_drop_min, length_stored]
  unfold BufferBlock.moveReadPt
  simp only [bufferEnd_eq, bufferStart, sub_zero, zero_add, if_pos hpos]
  have hwrap := h.getCanReadLength_of_wrap
  obtain ⟨h₀, h₁, h₂, h₃, h₄⟩ := id h
  split_ifs with hlt hall hempty hall hfits
  · have hlen := getCanReadLength_of_lt hlt
    exact ⟨by omega, h.consume (r := 0) (Or.inr (Or.inl ⟨by omega, rfl⟩))⟩
  · have hlen := getCanReadLength_of_lt hlt
    refine ⟨by omega, h.consume (Or.inr (Or.inr ⟨by omega, rfl, ?_⟩))⟩
    split_ifs <;> omega
  · have hlen := getCanReadLength_of_empty hempty
    exact ⟨by omega, h.consume (r := 0) (Or.inl ⟨by omega, rfl⟩)⟩
  · have hlen := hwrap hlt hempty
    exact ⟨by omega, h.consume (r := 0) (Or.inr (Or.inl ⟨by omega, rfl⟩))⟩
  · have hlen := hwrap hlt hempty
    refine ⟨by omega, h.consume (Or.inr (Or.inr ⟨by omega, rfl, ?_⟩))⟩
    split_ifs <;> omega
  · have hlen := hwrap hlt hempty
    refine ⟨by omega, h.consume (Or.inr (Or.inr ⟨by omega, rfl, ?_⟩))⟩
    split_ifs <;> omega

/-- The three ways in which an operation takes places in front of the oldest byte back: it leaves
the block as it is, it takes all free places, or it moves the read point back within them. -/
theorem Valid.unread (h : b.Valid) {b' : BufferBlock} {m : ℕ} {r : ℤ}
    (hb' : m = 0 ∧ b' = b ∨
      m = b.totalSize - b.getCanReadLength ∧ b' = { b with readPt := b.writePt, canRead := true } ∨
      m < b.totalSize - b.getCanReadLength ∧ b' = { b with readPt := r } ∧
        r = (if m ≤ b.readPt then b.readPt - m else b.readPt - m + b.totalSize)) :
    b'.Valid ∧ b'.totalSize = b.totalSize ∧ b'.stored.drop m = b.stored := by
  have hle := h.getCanReadLength_le
  suffices hmain : b'.Valid ∧ b'.totalSize = b.totalSize ∧ b'.mem = b.mem ∧
      b'.getCanReadLength = b.getCanReadLength + m ∧
      turn b.totalSize (place b.totalSize b'.readPt) m = place b.totalSize b.readPt by
    obtain ⟨hvalid, hN, hmem, hlen, hturn⟩ := hmain
    refine ⟨hvalid, hN, ?_⟩
    symm
    apply hvalid.stored_drop hmem.symm hN.symm (by omega) _ (by omega)
    rw [hN, hturn]
  obtain ⟨h₀, h₁, h₂, h₃, h₄⟩ := id h
  obtain ⟨rfl, rfl⟩ | ⟨hm, rfl⟩ | ⟨hm, rfl, hr⟩ := hb'
  · refine ⟨h, rfl, rfl, rfl, ?_⟩
    rw [Nat.cast_zero, turn_zero h.place_readPt.2]
  · have hfull : BufferBlock.getCanReadLength { b with readPt := b.writePt, canRead := true } =
        b.totalSize := getCanReadLength_of_full ⟨rfl, rfl⟩
    refine ⟨⟨h₀, h₃, h₄, h₃, h₄⟩, rfl, rfl, by omega, ?_⟩
    rcases hle.lt_or_eq with hlt | heq
    · rw [h.place_writePt hlt, turn_turn h.place_readPt.2 (by omega) (by omega),
        show (b.getCanReadLength + m : ℤ) = b.totalSize by omega]
      exact (turn_eq_self h.place_readPt.1 h.place_readPt.2 le_rfl).mpr (Or.inr rfl)
    · rw [h.place_writePt_of_full heq, show m = 0 by omega, Nat.cast_zero,
        turn_zero h.place_readPt.2]
  · refine ⟨⟨h₀, ?_, ?_, h₃, h₄⟩, rfl, rfl, ?_, ?_⟩
    · simp only [hr]
      split_ifs <;> omega
    · simp only [hr]
      split_ifs <;> omega
    · revert hm hr
      unfold BufferBlock.getCanReadLength
      simp only [bufferEnd_eq, bufferStart]
      split_ifs <;> omega
    · revert hm
      simp only [hr]
      unfold BufferBlock.getCanReadLength place turn
      simp only [bufferEnd_eq, bufferStart]
      split_ifs <;> omega

/-- `MoveReadPt` by no byte or backwards stores places in front of the oldest byte again, as far as
there are free ones: what was stored is what follows them. -/
theorem Valid.moveReadPt_back (h : b.Valid) (len : ℕ) :
    (b.moveReadPt (-len)).1 = min len (b.totalSize - b.stored.length) ∧
      (b.moveReadPt (-len)).2.Valid ∧ (b.moveReadPt (-len)).2.totalSize = b.totalSize ∧
      (b.moveReadPt (-len)).2.stored.drop (min len (b.totalSize - b.stored.length)) =
        b.stored := by
  have hle := h.getCanReadLength_le
  have hwrap := h.getCanReadLength_of_wrap
  obtain ⟨h₀, h₁, h₂, h₃, h₄⟩ := id h
  rw [length_stored]
  unfold BufferBlock.moveReadPt
  simp only [bufferEnd_eq, bufferStart, sub_zero, neg_neg]
  rw [if_neg (by omega)]
  split_ifs with hlt hall hfull hall hfits
  · have hlen := hwrap (by omega) (by omega)
    exact ⟨by omega, h.unread (r := 0) (Or.inr (Or.inl ⟨by omega, rfl⟩))⟩
  · have hlen := hwrap (by omega) (by omega)
    refine ⟨by omega, h.unread (Or.inr (Or.inr ⟨by omega, rfl, ?_⟩))⟩
    split_ifs <;> omega
  · have hlen := getCanReadLength_of_full hfull
    exact ⟨by omega, h.unread (r := 0) (Or.inl ⟨by omega, rfl⟩)⟩
  · have hlen := getCanReadLength_of_le (by omega) hfull
    exact ⟨by omega, h.unread (r := 0) (Or.inr (Or.inl ⟨by omega, rfl⟩))⟩
  · have hlen := getCanReadLength_of_le (by omega) hfull
    refine ⟨by omega, h.unread (Or.inr (Or.inr ⟨by omega, rfl, ?_⟩))⟩
    split_ifs <;> omega
  · have hlen := getCanReadLength_of_le (by omega) hfull
    refine ⟨by omega, h.unread (Or.inr (Or.inr ⟨by omega, rfl, ?_⟩))⟩
    split_ifs <;> omega

/-- `MoveReadPt` by a length that is not negative. -/
theorem Valid.moveReadPt_nat (h : b.Valid) (len : ℕ) :
    (b.moveReadPt len).1 = (min len b.stored.length : ℕ) ∧ (b.moveReadPt len).2.Valid ∧
      (b.moveReadPt len).2.totalSize = b.totalSize ∧
      (b.moveReadPt len).2.stored = b.stored.drop len := by
  rcases Nat.eq_zero_or_pos len with rfl | hpos
  · obtain ⟨hn, hvalid, hsize, hrest⟩ := h.moveReadPt_back 0
    exact ⟨by simpa using hn, hvalid, hsize, by simpa using hrest⟩
  · obtain ⟨hn, hrest⟩ := h.moveReadPt (show (0 : ℤ) < len by omega)
    exact ⟨by omega, hrest⟩

/-! ## Writing -/

/-- What the free places hold, from the write point on. -/
def freeBytes (b : BufferBlock) : List UInt8 :=
  window b.totalSize b.mem (place b.totalSize b.writePt) (b.totalSize - b.getCanReadLength)

/-- The memory after `data` has been copied behind the write point, up to the end of the block and
on from its start. -/
def fillMem (b : BufferBlock) (data : List UInt8) : ℤ → UInt8 :=
  blit (blit b.mem b.writePt (data.take (b.totalSize - b.writePt).toNat)) 0
    (data.drop (b.totalSize - b.writePt).toNat)

theorem length_freeBytes (b : BufferBlock) :
    b.freeBytes.length = b.totalSize - b.getCanReadLength := by simp [freeBytes]

theorem Valid.take_freeBytes (h : b.Valid) {m : ℕ} (hm : m ≤ b.totalSize - b.getCanReadLength) :
    b.freeBytes.take m = window b.totalSize b.mem (place b.totalSize b.writePt) m :=
  take_window _ _ (place_lt (by exact_mod_cast h.pos) h.write_le) hm (by omega)

/-- Copying into free places changes nothing that is stored, and the free places hold the copy. -/
theorem Valid.fill (h : b.Valid) (data : List UInt8)
    (hfit : b.getCanReadLength + data.length ≤ b.totalSize) :
    BufferBlock.Valid { b with mem := b.fillMem data } ∧
      BufferBlock.stored { b with mem := b.fillMem data } = b.stored ∧
      (BufferBlock.freeBytes { b with mem := b.fillMem data }).take data.length = data := by
  have hvalid : BufferBlock.Valid { b with mem := b.fillMem data } :=
    ⟨h.pos, h.read_nonneg, h.read_le, h.write_nonneg, h.write_le⟩
  refine ⟨hvalid, ?_⟩
  rcases h.getCanReadLength_le.lt_or_eq with hlt | heq
  · have hplace := h.place_writePt hlt
    have hall := window_blit_blit b.mem h.place_readPt.1 h.place_readPt.2 h.write_le hplace data
      (by exact_mod_cast hfit)
    rw [window_add _ _ h.place_readPt.2 (by exact_mod_cast hfit)] at hall
    obtain ⟨hstored, hdata⟩ := List.append_inj hall (by simp)
    rw [← hplace] at hdata
    exact ⟨hstored, (hvalid.take_freeBytes (Nat.le_sub_of_add_le' hfit)).trans hdata⟩
  · obtain rfl : data = [] := List.eq_nil_of_length_eq_zero (by omega)
    have hmem : b.fillMem [] = b.mem := by simp [fillMem]
    rw [hmem]
    exact ⟨rfl, rfl⟩

/-- The three ways in which an operation takes in free places: it leaves the block as it is, it
takes them all, or it moves the write point within them. -/
theorem Valid.extend (h : b.Valid) {b' : BufferBlock} {m : ℕ} {w : ℤ}
    (hb' : m = 0 ∧ b' = b ∨
      m = b.totalSize - b.getCanReadLength ∧ b' = { b with writePt := b.readPt, canRead := true } ∨
      m < b.totalSize - b.getCanReadLength ∧ b' = { b with writePt := w } ∧
        w = (if b.writePt + m ≤ b.totalSize then b.writePt + m
          else b.writePt + m - b.totalSize)) :
    b'.Valid ∧ b'.totalSize = b.totalSize ∧ b'.stored = b.stored ++ b.freeBytes.take m := by
  have hle := h.getCanReadLength_le
  suffices hmain : b'.Valid ∧ b'.totalSize = b.totalSize ∧ b'.mem = b.mem ∧
      b'.readPt = b.readPt ∧ b'.getCanReadLength = b.getCanReadLength + m ∧
      m ≤ b.totalSize - b.getCanReadLength by
    obtain ⟨hvalid, hN, hmem, hread, hlen, hm⟩ := hmain
    refine ⟨hvalid, hN, ?_⟩
    rw [stored, hmem, hN, hread, hlen, window_add _ _ h.place_readPt.2 (by omega),
      h.take_freeBytes hm]
    rcases hle.lt_or_eq with hlt | heq
    · rw [h.place_writePt hlt, stored]
    · rw [show m = 0 by omega, window_zero, window_zero, stored]
  obtain ⟨h₀, h₁, h₂, h₃, h₄⟩ := id h
  obtain ⟨rfl, rfl⟩ | ⟨hm, rfl⟩ | ⟨hm, rfl, hw⟩ := hb'
  · exact ⟨h, rfl, rfl, rfl, rfl, by omega⟩
  · have hfull : BufferBlock.getCanReadLength { b with writePt := b.readPt, canRead := true } =
        b.totalSize := getCanReadLength_of_full ⟨rfl, rfl⟩
    exact ⟨⟨h₀, h₁, h₂, h₁, h₂⟩, rfl, rfl, rfl, by omega, by omega⟩
  · refine ⟨⟨h₀, h₁, h₂, ?_, ?_⟩, rfl, rfl, rfl, ?_, hm.le⟩
    · simp only [hw]
      split_ifs <;> omega
    · simp only [hw]
      split_ifs <;> omega
    · revert hm
      simp only [hw]
      unfold BufferBlock.getCanReadLength
      simp only [bufferEnd_eq, bufferStart]
      split_ifs <;> omega

/-- `MoveWritePt` forward stores what the free places hold and says how many it took. -/
theorem Valid.moveWritePt (h : b.Valid) {len : ℤ} (hpos : 0 < len) :
    (b.moveWritePt len).1 = min len (b.totalSize - b.stored.length) ∧
      (b.moveWritePt len).2.Valid ∧ (b.moveWritePt len).2.totalSize = b.totalSize ∧
      (b.moveWritePt len).2.stored = b.stored ++ b.freeBytes.take len.toNat := by
  have hle := h.getCanReadLength_le
  have hwrap := h.getCanReadLength_of_wrap
  obtain ⟨h₀, h₁, h₂, h₃, h₄⟩ := id h
  rw [b.freeBytes.take_eq_take_min, length_freeBytes, length_stored]
  unfold BufferBlock.moveWritePt
  simp only [bufferEnd_eq, bufferStart, sub_zero, zero_add, if_pos hpos]
  split_ifs with hlt hall hfull hall hfits
  · have hlen := hwrap (by omega) (by omega)
    exact ⟨by omega, h.extend (w := 0) (Or.inr (Or.inl ⟨by omega, rfl⟩))⟩
  · have hlen := hwrap (by omega) (by omega)
    refine ⟨by omega, h.extend (Or.inr (Or.inr ⟨by omega, rfl, ?_⟩))⟩
    split_ifs <;> omega
  · have hlen := getCanReadLength_of_full hfull
    exact ⟨by omega, h.extend (w := 0) (Or.inl ⟨by omega, rfl⟩)⟩
  · have hlen := getCanReadLength_of_le (by omega) hfull
    exact ⟨by omega, h.extend (w := 0) (Or.inr (Or.inl ⟨by omega, rfl⟩))⟩
  · have hlen := getCanReadLength_of_le (by omega) hfull
    refine ⟨by omega, h.extend (Or.inr (Or.inr ⟨by omega, rfl, ?_⟩))⟩
    split_ifs <;> omega
  · have hlen := getCanReadLength_of_le (by omega) hfull
    refine ⟨by omega, h.extend (Or.inr (Or.inr ⟨by omega, rfl, ?_⟩))⟩
    split_ifs <;> omega

theorem fillMem_of_le {data : List UInt8} (h : data.length ≤ (b.totalSize - b.writePt).toNat) :
    b.fillMem data = blit b.mem b.writePt data := by
  rw [fillMem, List.take_of_length_le h, List.drop_eq_nil_of_le h, blit_nil]

/-- Copying `data` into free places and taking them in stores `data` behind what was there. -/
theorem Valid.store (h : b.Valid) {b' : BufferBlock} {data : List UInt8} {w : ℤ}
    (hfit : data.length ≤ b.totalSize - b.getCanReadLength)
    (hb' : data.length = 0 ∧ b' = b ∨
      data.length = b.totalSize - b.getCanReadLength ∧
        b' = { b with mem := b.fillMem data, writePt := b.readPt, canRead := true } ∨
      data.length < b.totalSize - b.getCanReadLength ∧
        b' = { b with mem := b.fillMem data, writePt := w } ∧
        w = (if b.writePt + data.length ≤ b.totalSize then b.writePt + data.length
          else b.writePt + data.length - b.totalSize)) :
    b'.Valid ∧ b'.totalSize = b.totalSize ∧ b'.stored = b.stored ++ data := by
  have hle := h.getCanReadLength_le
  obtain ⟨hvalid, hstored, htake⟩ := h.fill data (by omega)
  rcases hb' with ⟨hm, rfl⟩ | ⟨hm, rfl⟩ | ⟨hm, rfl, hw⟩
  · rw [List.eq_nil_of_length_eq_zero hm, List.append_nil]
    exact ⟨h, rfl, rfl⟩
  · obtain ⟨hvalid', hN, hstored'⟩ := hvalid.extend (w := 0) (Or.inr (Or.inl ⟨hm, rfl⟩))
    rw [htake, hstored] at hstored'
    exact ⟨hvalid', hN, hstored'⟩
  · obtain ⟨hvalid', hN, hstored'⟩ := hvalid.extend (Or.inr (Or.inr ⟨hm, rfl, hw⟩))
    rw [htake, hstored] at hstored'
    exact ⟨hvalid', hN, hstored'⟩

/-- `Write` stores as much of the data as there is room for, behind what was there. -/
theorem Valid.write (h : b.Valid) (data : List UInt8) :
    (b.write data).1 = min data.length (b.totalSize - b.stored.length) ∧
      (b.write data).2.Valid ∧ (b.write data).2.totalSize = b.totalSize ∧
      (b.write data).2.stored = b.stored ++ data.take (b.totalSize - b.stored.length) := by
  have hle := h.getCanReadLength_le
  have hwrap := h.getCanReadLength_of_wrap
  obtain ⟨h₀, h₁, h₂, h₃, h₄⟩ := id h
  rw [length_stored]
  unfold BufferBlock.write
  simp only [bufferEnd_eq, bufferStart, sub_zero, zero_add]
  split_ifs with hlt hall heq hfull hall hfits
  · have hlen := hwrap (by omega) (by omega)
    rw [List.take_of_length_le (by omega), ← fillMem_of_le (by omega), heq]
    exact ⟨by omega, h.store (w := 0) (by omega) (Or.inr (Or.inl ⟨by omega, rfl⟩))⟩
  · have hlen := hwrap (by omega) (by omega)
    rw [List.take_of_length_le (by omega), ← fillMem_of_le (by omega)]
    refine ⟨by omega, h.store (by omega) (Or.inr (Or.inr ⟨by omega, rfl, ?_⟩))⟩
    split_ifs <;> omega
  · have hlen := hwrap (by omega) (by omega)
    have hsize : (b.readPt - b.writePt).toNat = b.totalSize - b.getCanReadLength := by omega
    have htake : (data.take (b.totalSize - b.getCanReadLength)).length =
        b.totalSize - b.getCanReadLength := by rw [List.length_take]; omega
    rw [hsize, ← fillMem_of_le (by omega), show b.writePt + ((b.totalSize -
      b.getCanReadLength : ℕ) : ℤ) = b.readPt by omega]
    exact ⟨by omega, h.store (w := 0) htake.le (Or.inr (Or.inl ⟨htake, rfl⟩))⟩
  · have hlen := getCanReadLength_of_full hfull
    rw [hlen, Nat.sub_self, List.take_zero]
    exact ⟨by omega, h.store (w := 0) (Nat.zero_le _) (Or.inl ⟨rfl, rfl⟩)⟩
  · have hlen := getCanReadLength_of_le (by omega) hfull
    have hsize : b.readPt.toNat + (b.totalSize - b.writePt).toNat =
        b.totalSize - b.getCanReadLength := by omega
    have htake : (data.take (b.totalSize - b.getCanReadLength)).length =
        b.totalSize - b.getCanReadLength := by rw [List.length_take]; omega
    have hmem : blit (blit b.mem b.writePt (data.take (b.totalSize - b.writePt).toNat)) 0
        ((data.drop (b.totalSize - b.writePt).toNat).take b.readPt.toNat) =
          b.fillMem (data.take (b.totalSize - b.getCanReadLength)) := by
      rw [fillMem, List.take_take, List.drop_take, min_eq_left (by omega), ← hsize,
        Nat.add_sub_cancel]
    rw [hmem]
    exact ⟨by omega, h.store (w := 0) htake.le (Or.inr (Or.inl ⟨htake, rfl⟩))⟩
  · have hlen := getCanReadLength_of_le (by omega) hfull
    rw [List.take_of_length_le (by omega), ← fillMem_of_le (by omega)]
    refine ⟨by omega, h.store (by omega) (Or.inr (Or.inr ⟨by omega, rfl, ?_⟩))⟩
    split_ifs <;> omega
  · have hlen := getCanReadLength_of_le (by omega) hfull
    have hmem : blit (blit b.mem b.writePt (data.take (b.totalSize - b.writePt).toNat)) 0
        ((data.drop (b.totalSize - b.writePt).toNat).take
          (data.length - (b.totalSize - b.writePt).toNat)) = b.fillMem data := by
      rw [List.take_of_length_le (l := data.drop _) (by rw [List.length_drop])]
      rfl
    rw [hmem, List.take_of_length_le (by omega)]
    refine ⟨by omega, h.store (by omega) (Or.inr (Or.inr ⟨by omega, rfl, ?_⟩))⟩
    split_ifs <;> omega

/-- `MoveWritePt` by no byte or backwards removes the newest bytes and says how many. -/
theorem Valid.moveWritePt_back (h : b.Valid) (len : ℕ) :
    (b.moveWritePt (-len)).1 = min len b.stored.length ∧ (b.moveWritePt (-len)).2.Valid ∧
      (b.moveWritePt (-len)).2.totalSize = b.totalSize ∧
      (b.moveWritePt (-len)).2.stored = b.stored.take (b.stored.length - len) := by
  have hle := h.getCanReadLength_le
  have hwrap := h.getCanReadLength_of_wrap
  obtain ⟨h₀, h₁, h₂, h₃, h₄⟩ := id h
  have hback : ∀ {w : ℤ}, len < b.getCanReadLength →
      w = (if len ≤ b.writePt then b.writePt - len else b.writePt - len + b.totalSize) →
      BufferBlock.Valid { b with writePt := w } ∧ b.totalSize = b.totalSize ∧
        BufferBlock.stored { b with writePt := w } =
          b.stored.take (b.getCanReadLength - len) := by
    intro w hm hw
    refine ⟨⟨h₀, h₁, h₂, ?_, ?_⟩, rfl, h.stored_take rfl rfl rfl ?_⟩
    · simp only [hw]
      split_ifs <;> omega
    · simp only [hw]
      split_ifs <;> omega
    · revert hm
      simp only [hw]
      unfold BufferBlock.getCanReadLength
      simp only [bufferEnd_eq, bufferStart]
      split_ifs <;> omega
  rw [length_stored]
  unfold BufferBlock.moveWritePt
  simp only [bufferEnd_eq, bufferStart, sub_zero, neg_neg]
  rw [if_neg (by omega)]
  split_ifs with hlt hall hempty hall hfits
  · have hlen := getCanReadLength_of_lt hlt
    refine ⟨by omega, h.clear, rfl, ?_⟩
    rw [stored_clear, Nat.sub_eq_zero_of_le (by omega), List.take_zero]
  · have hlen := getCanReadLength_of_lt hlt
    refine ⟨by omega, hback (by omega) ?_⟩
    split_ifs <;> omega
  · have hlen := getCanReadLength_of_empty hempty
    exact ⟨by omega, h, rfl, by simp [stored_eq_nil.mpr hlen]⟩
  · have hlen := hwrap hlt hempty
    refine ⟨by omega, h.clear, rfl, ?_⟩
    rw [stored_clear, Nat.sub_eq_zero_of_le (by omega), List.take_zero]
  · have hlen := hwrap hlt hempty
    refine ⟨by omega, hback (by omega) ?_⟩
    rw [if_pos hfits]
  · have hlen := hwrap hlt hempty
    refine ⟨by omega, hback (by omega) ?_⟩
    rw [if_neg hfits]
    omega

/-! ## The pieces given to the system calls -/

/-- The pieces of `GetUseMemoryBlock` hold what is stored. -/
theorem Valid.getUseMemoryBlock (h : b.Valid) :
    slice b.mem b.getUseMemoryBlock.1.base b.getUseMemoryBlock.1.len ++
      slice b.mem b.getUseMemoryBlock.2.base b.getUseMemoryBlock.2.len = b.stored := by
  obtain ⟨h₀, h₁, h₂, h₃, h₄⟩ := id h
  have hall := h.take_stored (min_self b.getCanReadLength).symm
  rw [List.take_of_length_le b.length_stored.le] at hall
  unfold BufferBlock.getUseMemoryBlock
  simp only [bufferEnd_eq, bufferStart, sub_zero]
  split_ifs with hle hempty
  · rw [stored_eq_nil.mpr (getCanReadLength_of_empty ⟨hempty.1, hempty.2.symm⟩)]
    simp
  · rw [hall, h.getCanReadLength_of_wrap (by omega) (fun h => hempty ⟨h.1, h.2.symm⟩),
      min_eq_right (by omega), Nat.add_sub_cancel]
  · rw [hall, getCanReadLength_of_lt (by omega), min_eq_left (by omega),
      Nat.sub_eq_zero_of_le (by omega)]

/-- The pieces of `GetFreeMemoryBlock` are the free places: they have their length, and what is
copied into them one after the other is copied behind the write point. -/
theorem Valid.getFreeMemoryBlock (h : b.Valid) :
    b.getFreeMemoryBlock.1.len + b.getFreeMemoryBlock.2.len = b.totalSize - b.stored.length ∧
      ∀ data : List UInt8, data.length ≤ b.totalSize - b.stored.length →
        blit (blit b.mem b.getFreeMemoryBlock.1.base (data.take b.getFreeMemoryBlock.1.len))
            b.getFreeMemoryBlock.2.base (data.drop b.getFreeMemoryBlock.1.len) =
          b.fillMem data := by
  obtain ⟨h₀, h₁, h₂, h₃, h₄⟩ := id h
  rw [length_stored]
  unfold BufferBlock.getFreeMemoryBlock
  simp only [bufferEnd_eq, bufferStart, sub_zero]
  split_ifs with hle hfull
  · have hlen := getCanReadLength_of_full ⟨hfull.1, hfull.2.symm⟩
    refine ⟨by simp only; omega, fun data hdata => ?_⟩
    obtain rfl : data = [] := List.eq_nil_of_length_eq_zero (by omega)
    simp [fillMem]
  · have hlen := getCanReadLength_of_le hle (fun h => hfull ⟨h.1, h.2.symm⟩)
    exact ⟨by simp only; omega, fun data _ => rfl⟩
  · have hlen := h.getCanReadLength_of_wrap (by omega) (by omega)
    refine ⟨by simp only; omega, fun data hdata => ?_⟩
    have hfits : data.length ≤ (b.readPt - b.writePt).toNat := by omega
    rw [fillMem_of_le (by omega), List.take_of_length_le hfits, List.drop_eq_nil_of_le hfits,
      blit_nil]

end BufferBlock

end CodeTest.CppNet
