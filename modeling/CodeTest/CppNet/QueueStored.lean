import CodeTest.CppNet.BlockStored
import CodeTest.CppNet.BufferQueue

/-!
# What a buffer queue stores

The bytes stored are those of the blocks, one block after the other. The shape that every operation
keeps: the blocks behind `_buffer_write` are empty, and the blocks between the head and
`_buffer_write` are not, so that `Read` may stop at the first empty block it meets after the head.
-/

namespace CodeTest.CppNet

open Circular

/-- The bytes of a list of blocks. -/
def storedList (list : List BufferBlock) : List UInt8 := list.flatMap BufferBlock.stored

@[simp] theorem storedList_nil : storedList [] = [] := rfl

@[simp] theorem storedList_cons (b : BufferBlock) (list : List BufferBlock) :
    storedList (b :: list) = b.stored ++ storedList list := rfl

@[simp] theorem storedList_append (list list' : List BufferBlock) :
    storedList (list ++ list') = storedList list ++ storedList list' := List.flatMap_append

/-- Blocks of the pool: valid and of its block length. -/
def PoolBlocks (N : ℕ) (list : List BufferBlock) : Prop := ∀ b ∈ list, b.Valid ∧ b.totalSize = N

/-- Blocks that store nothing. -/
def Drained (list : List BufferBlock) : Prop := ∀ b ∈ list, b.stored = []

theorem Drained.storedList {list : List BufferBlock} (h : Drained list) : storedList list = [] :=
  List.flatMap_eq_nil_iff.mpr h

/-- The list is empty and `_buffer_write` null, or `_buffer_write` stands in the list, with drained
blocks behind it and, from the second block on, no drained block in front of it. -/
def Shape (N : ℕ) (list : List BufferBlock) (write : Option ℕ) : Prop :=
  list = [] ∧ write = none ∨
    ∃ front w back, list = front ++ w :: back ∧ write = some front.length ∧ PoolBlocks N list ∧
      Drained back ∧ ∀ b ∈ front.tail, b.stored ≠ []

theorem PoolBlocks.cons {N : ℕ} {b : BufferBlock} {list : List BufferBlock} (hb : b.Valid)
    (hN : b.totalSize = N) (h : PoolBlocks N list) : PoolBlocks N (b :: list) := by
  intro c hc
  rcases List.mem_cons.mp hc with rfl | hc
  · exact ⟨hb, hN⟩
  · exact h c hc

theorem PoolBlocks.tail {N : ℕ} {b : BufferBlock} {list : List BufferBlock}
    (h : PoolBlocks N (b :: list)) : PoolBlocks N list :=
  fun c hc => h c (List.mem_cons_of_mem _ hc)

namespace Shape

variable {N : ℕ} {b : BufferBlock} {list rest : List BufferBlock} {write : Option ℕ}

theorem pool (h : Shape N list write) : PoolBlocks N list := by
  rcases h with ⟨rfl, -⟩ | ⟨front, w, back, -, -, hpool, -, -⟩
  · intro b hb
    exact absurd hb List.not_mem_nil
  · exact hpool

/-- An operation on the head may leave anything in it. -/
theorem set_head (h : Shape N (b :: rest) write) {b' : BufferBlock} (hb' : b'.Valid)
    (hN : b'.totalSize = N) : Shape N (b' :: rest) write := by
  rcases h with ⟨h, -⟩ | ⟨front, w, back, hlist, hwrite, hpool, hback, hfront⟩
  · cases h
  · have hpool' := PoolBlocks.cons hb' hN hpool.tail
    cases front with
    | nil =>
      obtain ⟨rfl, rfl⟩ := List.cons.inj hlist
      exact Or.inr ⟨[], b', _, rfl, hwrite, hpool', hback, by simp⟩
    | cons c front =>
      obtain ⟨rfl, rfl⟩ := List.cons.inj hlist
      exact Or.inr ⟨b' :: front, w, back, rfl, hwrite, hpool', hback, hfront⟩

/-- Popping the head while another block is behind it: `_buffer_write` moves on when it was the
head. -/
theorem pop {next : BufferBlock} (h : Shape N (b :: next :: rest) write) :
    Shape N (next :: rest) (write.map (· - 1)) := by
  rcases h with ⟨h, -⟩ | ⟨front, w, back, hlist, rfl, hpool, hback, hfront⟩
  · cases h
  · cases front with
    | nil =>
      obtain ⟨rfl, rfl⟩ := List.cons.inj hlist
      refine Or.inr ⟨[], next, rest, rfl, rfl, hpool.tail, fun c hc => ?_, by simp⟩
      exact hback c (List.mem_cons_of_mem _ hc)
    | cons c front =>
      rw [List.cons_append, List.cons.injEq] at hlist
      refine Or.inr ⟨front, w, back, hlist.2, rfl, hpool.tail, hback, fun c hc => ?_⟩
      exact hfront c (List.mem_of_mem_tail hc)

/-- Behind `_buffer_write` nothing is stored. -/
theorem drained_of_zero (h : Shape N (b :: rest) (some 0)) : storedList rest = [] := by
  rcases h with ⟨h, -⟩ | ⟨front, w, back, hlist, hwrite, -, hback, -⟩
  · cases h
  · obtain rfl : front = [] := List.eq_nil_of_length_eq_zero (Option.some.inj hwrite).symm
    obtain ⟨rfl, rfl⟩ := List.cons.inj hlist
    exact hback.storedList

/-- Behind an empty second block nothing is stored. -/
theorem drained {next : BufferBlock} (h : Shape N (b :: next :: rest) write)
    (hnext : next.stored = []) : storedList (next :: rest) = [] := by
  rcases h with ⟨h, -⟩ | ⟨front, w, back, hlist, -, -, hback, hfront⟩
  · cases h
  · match front with
    | [] =>
      obtain ⟨rfl, rfl⟩ := List.cons.inj hlist
      exact hback.storedList
    | [c] =>
      obtain ⟨-, rfl, rfl⟩ := by simpa using hlist
      rw [storedList_cons, hnext, hback.storedList, List.append_nil]
    | c :: d :: front =>
      obtain ⟨-, rfl, -⟩ := by simpa using hlist
      exact absurd hnext (hfront next List.mem_cons_self)

end Shape

/-- `_buffer_write` is null, or it or a block behind it has room. -/
def Roomy (list : List BufferBlock) (write : Option ℕ) : Prop :=
  ∀ t, write = some t → ∃ b ∈ list.drop t, b.stored.length < b.totalSize

theorem Roomy.set_head {b b' : BufferBlock} {rest : List BufferBlock} {write : Option ℕ}
    (h : Roomy (b :: rest) write) (hle : b'.stored.length ≤ b.stored.length)
    (hN : b'.totalSize = b.totalSize) : Roomy (b' :: rest) write := by
  intro t ht
  obtain ⟨c, hc, hroom⟩ := h t ht
  cases t with
  | zero =>
    rcases List.mem_cons.mp hc with rfl | hc
    · exact ⟨b', List.mem_cons_self, by omega⟩
    · exact ⟨c, List.mem_cons_of_mem _ hc, hroom⟩
  | succ t => exact ⟨c, hc, hroom⟩

/-- Popping the head keeps the room: when `_buffer_write` moves on, it moves to an empty block. -/
theorem Roomy.pop {N : ℕ} {b next : BufferBlock} {rest : List BufferBlock} {write : Option ℕ}
    (h : Roomy (b :: next :: rest) write) (hshape : Shape N (b :: next :: rest) write) :
    Roomy (next :: rest) (write.map (· - 1)) := by
  intro t ht
  obtain ⟨t', rfl, rfl⟩ := Option.map_eq_some_iff.mp ht
  cases t' with
  | zero =>
    obtain ⟨hvalid, -⟩ := hshape.pool next (by simp)
    have hempty := hshape.drained_of_zero
    rw [storedList_cons, List.append_eq_nil_iff] at hempty
    exact ⟨next, List.mem_cons_self, by rw [hempty.1]; exact hvalid.pos⟩
  | succ t' => exact h (t' + 1) rfl

/-! ## Reading -/

/-- One round of the loop of `Read` where the block at the head has what is asked for. -/
theorem readLoop_enough {b : BufferBlock} (hb : b.Valid) (rest : List BufferBlock)
    (write : Option ℕ) {len : ℕ} (hle : len ≤ b.stored.length) :
    BufferQueue.readLoop (b :: rest) write len =
      (b.stored.take len, (b.read len).2 :: rest, write) := by
  have hbytes := (hb.read len).1
  have hlen : len ≤ (b.read len).1.length := by rw [hbytes, List.length_take]; omega
  rw [BufferQueue.readLoop, ← hbytes]
  simp only [if_pos hlen]

/-- One round where it has less, and is the last block. -/
theorem readLoop_last {b : BufferBlock} (hb : b.Valid) (write : Option ℕ) {len : ℕ}
    (hlt : b.stored.length < len) :
    BufferQueue.readLoop [b] write len = (b.stored, [], none) := by
  have hbytes := (hb.read len).1
  rw [List.take_of_length_le hlt.le] at hbytes
  rw [BufferQueue.readLoop]
  simp only [hbytes, if_neg hlt.not_ge]

/-- One round where it has less, and another block is behind it. -/
theorem readLoop_more {b next : BufferBlock} (hb : b.Valid) (rest : List BufferBlock)
    (write : Option ℕ) {len : ℕ} (hlt : b.stored.length < len) :
    BufferQueue.readLoop (b :: next :: rest) write len =
      if next.stored = [] then (b.stored, next :: rest, write.map (· - 1))
      else
        let r := BufferQueue.readLoop (next :: rest) (write.map (· - 1)) (len - b.stored.length)
        (b.stored ++ r.1, r.2.1, r.2.2) := by
  have hbytes := (hb.read len).1
  rw [List.take_of_length_le hlt.le] at hbytes
  rw [BufferQueue.readLoop]
  simp only [hbytes, if_neg hlt.not_ge, BufferBlock.stored_eq_nil]

variable {N : ℕ} {list : List BufferBlock} {write : Option ℕ}

/-- The loop of `Read` puts out the oldest bytes, and leaves the others in the shape. -/
theorem readLoop_spec (h : Shape N list write) (len : ℕ) :
    let r := BufferQueue.readLoop list write len
    r.1 = (storedList list).take len ∧ storedList r.2.1 = (storedList list).drop len ∧
      Shape N r.2.1 r.2.2 ∧ (Roomy list write → Roomy r.2.1 r.2.2) := by
  induction list generalizing write len with
  | nil => exact ⟨by simp [BufferQueue.readLoop], by simp [BufferQueue.readLoop], h, id⟩
  | cons b rest ih =>
    obtain ⟨hb, hN⟩ := h.pool b List.mem_cons_self
    obtain ⟨-, hvalid, hsize, hrest⟩ := hb.read len
    rw [storedList_cons, List.take_append, List.drop_append]
    by_cases hle : len ≤ b.stored.length
    · rw [readLoop_enough hb _ _ hle, Nat.sub_eq_zero_of_le hle]
      refine ⟨by simp, by simp [hrest], h.set_head hvalid (hsize.trans hN), fun hroom => ?_⟩
      exact hroom.set_head (by rw [hrest, List.length_drop]; omega) hsize
    · have hlt : b.stored.length < len := by omega
      rw [List.take_of_length_le hlt.le, List.drop_eq_nil_of_le hlt.le, List.nil_append]
      cases rest with
      | nil =>
        rw [readLoop_last hb _ hlt]
        exact ⟨by simp, by simp, Or.inl ⟨rfl, rfl⟩, fun _ t ht => nomatch ht⟩
      | cons next rest =>
        rw [readLoop_more hb _ _ hlt]
        split_ifs with hnext
        · simp only [h.drained hnext]
          exact ⟨by simp, by simp, h.pop, fun hroom => hroom.pop h⟩
        · obtain ⟨hbytes, hstored, hshape, hkeep⟩ := ih h.pop (len - b.stored.length)
          exact ⟨congrArg (b.stored ++ ·) hbytes, hstored, hshape,
            fun hroom => hkeep (hroom.pop h)⟩

/-- `ReadNotMovePt` puts out the oldest bytes. -/
theorem readNotMovePtLoop_spec (h : Shape N list write) (len : ℕ) :
    BufferQueue.readNotMovePtLoop list write len = (storedList list).take len := by
  induction list generalizing write len with
  | nil => simp [BufferQueue.readNotMovePtLoop]
  | cons b rest ih =>
    obtain ⟨hb, hN⟩ := h.pool b List.mem_cons_self
    rw [BufferQueue.readNotMovePtLoop, storedList_cons, List.take_append]
    simp only [hb.readNotMovePt]
    split_ifs with hzero hwrite
    · simp [hzero]
    · subst hwrite
      simp [h.drained_of_zero]
    · cases rest with
      | nil => simp [BufferQueue.readNotMovePtLoop]
      | cons next rest =>
        rw [ih h.pop, List.length_take,
          show len - min len b.stored.length = len - b.stored.length by omega]

/-- `MoveReadPt` drops the oldest bytes and says how many. -/
theorem moveReadPtLoop_spec (h : Shape N list write) (len : ℕ) :
    let r := BufferQueue.moveReadPtLoop list write len
    r.1 = min len (storedList list).length ∧
      storedList r.2.1 = (storedList list).drop len ∧ Shape N r.2.1 r.2.2 := by
  induction list generalizing write len with
  | nil => exact ⟨by simp [BufferQueue.moveReadPtLoop], by simp [BufferQueue.moveReadPtLoop], h⟩
  | cons b rest ih =>
    obtain ⟨hb, hN⟩ := h.pool b List.mem_cons_self
    obtain ⟨hn, hvalid, hsize, hrest⟩ := hb.moveReadPt_nat len
    rw [storedList_cons, List.drop_append, List.length_append, BufferQueue.moveReadPtLoop]
    simp only [hn]
    split_ifs with hle
    · have hle : len ≤ b.stored.length := by omega
      refine ⟨by omega, ?_, h.set_head hvalid (hsize.trans hN)⟩
      rw [storedList_cons, hrest, Nat.sub_eq_zero_of_le hle, List.drop_zero]
    · have hlt : b.stored.length < len := by omega
      rw [List.drop_eq_nil_of_le hlt.le, List.nil_append]
      cases rest with
      | nil => exact ⟨by simp, by simp, Or.inl ⟨rfl, rfl⟩⟩
      | cons next rest =>
        obtain ⟨hcount, hstored, hshape⟩ := ih h.pop (len - b.stored.length)
        have hleft : (len : ℤ) - min len b.stored.length = (len - b.stored.length : ℕ) := by omega
        simp only [hleft]
        exact ⟨by rw [hcount]; omega, hstored, hshape⟩

/-! ## Vectors -/

@[simp] theorem gather_append (vec vec' : List Piece) :
    gather list (vec ++ vec') = gather list vec ++ gather list vec' := List.flatMap_append

@[simp] theorem vecLength_append (vec vec' : List Piece) :
    vecLength (vec ++ vec') = vecLength vec + vecLength vec' := by simp [vecLength]

theorem vecLength_piecesOf (t : ℕ) (v : Iovec × Iovec) :
    vecLength (piecesOf t v) = v.1.len + v.2.len := by
  unfold piecesOf vecLength
  simp only [List.filter_cons, List.filter_nil, decide_eq_true_eq]
  split_ifs <;> simp <;> omega

/-- The pieces that are not null hold what both pieces of the block hold. -/
theorem gather_piecesOf {t : ℕ} {b : BufferBlock} (hb : list[t]? = some b) (v : Iovec × Iovec) :
    gather list (piecesOf t v) =
      slice b.mem v.1.base v.1.len ++ slice b.mem v.2.base v.2.len := by
  unfold piecesOf gather
  simp only [List.filter_cons, List.filter_nil, decide_eq_true_eq]
  split_ifs with h₁ h₂ h₂ <;> simp only [List.flatMap_cons, List.flatMap_nil, hb, List.append_nil]
  · rw [Nat.eq_zero_of_not_pos h₂, slice_zero, List.append_nil]
  · rw [Nat.eq_zero_of_not_pos h₁, slice_zero, List.nil_append]
  · rw [Nat.eq_zero_of_not_pos h₁, Nat.eq_zero_of_not_pos h₂, slice_zero, slice_zero,
      List.append_nil]

/-- The vector of `GetUseMemoryBlock` holds the oldest bytes: all of them, or at least as many as
are asked for. -/
theorem getUseMemoryBlockLoop_spec (maxSize : ℕ) (pre : List BufferBlock) (h : Shape N list write)
    (curLen : ℕ) :
    let vec := BufferQueue.getUseMemoryBlockLoop maxSize list write pre.length curLen
    gather (pre ++ list) vec <+: storedList list ∧
      (gather (pre ++ list) vec = storedList list ∨
        0 < maxSize ∧ maxSize ≤ curLen + (gather (pre ++ list) vec).length) := by
  induction list generalizing write pre curLen with
  | nil => exact ⟨by simp [BufferQueue.getUseMemoryBlockLoop, gather],
      Or.inl (by simp [BufferQueue.getUseMemoryBlockLoop, gather])⟩
  | cons b rest ih =>
    obtain ⟨hb, hN⟩ := h.pool b List.mem_cons_self
    have hget : (pre ++ b :: rest)[pre.length]? = some b := by simp
    have hpieces := gather_piecesOf hget b.getUseMemoryBlock
    rw [hb.getUseMemoryBlock] at hpieces
    have hlen : b.getUseMemoryBlock.1.len + b.getUseMemoryBlock.2.len = b.stored.length := by
      rw [← hb.getUseMemoryBlock]; simp
    rw [BufferQueue.getUseMemoryBlockLoop]
    simp only
    split_ifs with hwrite hmax
    · subst hwrite
      rw [hpieces, storedList_cons, h.drained_of_zero, List.append_nil]
      exact ⟨List.prefix_rfl, Or.inl rfl⟩
    · rw [hpieces]
      exact ⟨List.prefix_append _ _, Or.inr ⟨hmax.1, by omega⟩⟩
    · rw [gather_append, hpieces, storedList_cons]
      cases rest with
      | nil => simp [BufferQueue.getUseMemoryBlockLoop, gather]
      | cons next rest =>
        obtain ⟨hstart, hall⟩ := ih (pre ++ [b]) h.pop
          (curLen + b.getUseMemoryBlock.1.len + b.getUseMemoryBlock.2.len)
        simp only [List.length_append, List.length_singleton, List.append_assoc,
          List.singleton_append] at hstart hall
        refine ⟨(List.prefix_append_right_inj _).mpr hstart, hall.imp (by rw [·]) ?_⟩
        rintro ⟨hpos, hle⟩
        rw [List.length_append]
        exact ⟨hpos, by omega⟩

end CodeTest.CppNet
