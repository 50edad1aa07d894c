import CodeTest.CppNet.QueueStored

/-!
# Writing to a buffer queue

While bytes are written `_buffer_write` may be null although there are blocks: the list is then full
to its end and the next round appends a block. `WriteShape` is the shape of those states, with the
list cut in front of `_buffer_write`. Both `Write` and the pair of `GetFreeMemoryBlock` and
`MoveWritePt`, with a `readv` between them, store their bytes behind what was there.
-/

namespace CodeTest.CppNet

open Circular

/-- The blocks in front of `_buffer_write` and those from it on. -/
structure WriteShape (q : BufferQueue) (front back : List BufferBlock) : Prop where
  pos : 0 < q.blockLength
  list_eq : q.bufferList = front ++ back
  write_eq : q.bufferWrite = if back = [] then none else some front.length
  pool : PoolBlocks q.blockLength (front ++ back)
  drained : Drained back.tail
  filled : ∀ b ∈ front.tail, b.stored ≠ []

variable {q : BufferQueue} {front back : List BufferBlock}

theorem WriteShape.shape (h : WriteShape q front back) (hne : back ≠ []) :
    Shape q.blockLength q.bufferList q.bufferWrite := by
  obtain ⟨w, back, rfl⟩ := List.exists_cons_of_ne_nil hne
  refine Or.inr ⟨front, w, back, h.list_eq, ?_, ?_, h.drained, h.filled⟩
  · rw [h.write_eq, if_neg hne]
  · rw [h.list_eq]
    exact h.pool

theorem Shape.writeShape (h : Shape q.blockLength q.bufferList q.bufferWrite)
    (hpos : 0 < q.blockLength) : ∃ front back, WriteShape q front back ∧
      (back = [] → front = []) := by
  rcases h with ⟨hlist, hwrite⟩ | ⟨front, w, back, hlist, hwrite, hpool, hback, hfront⟩
  · refine ⟨[], [], ⟨hpos, by simpa using hlist, by simpa using hwrite, ?_, ?_, ?_⟩, fun _ => rfl⟩
    · simp [PoolBlocks]
    · simp [Drained]
    · simp
  · refine ⟨front, w :: back, ⟨hpos, hlist, by simpa using hwrite, ?_, hback, hfront⟩, by simp⟩
    rw [← hlist]
    exact hpool

/-- Appending a block. Where `_buffer_write` is null it is written next. -/
theorem WriteShape.append (h : WriteShape q front back) :
    ∃ w, w.stored = [] ∧ WriteShape q.append front (back ++ [w]) ∧
      q.append.bufferList = q.bufferList ++ [w] := by
  refine ⟨BufferBlock.new (q.blockAlloter 0) q.blockLength, BufferBlock.stored_new _ _, ?_, rfl⟩
  refine ⟨h.pos, ?_, ?_, ?_, ?_, h.filled⟩
  · simp [BufferQueue.append, h.list_eq]
  · simp only [BufferQueue.append, h.write_eq, h.list_eq]
    cases back <;> simp
  · intro b hb
    rw [← List.append_assoc] at hb
    rcases List.mem_append.mp hb with hb | hb
    · exact h.pool b hb
    · obtain rfl := List.mem_singleton.mp hb
      exact ⟨.new _ h.pos, rfl⟩
  · intro b hb
    cases back with
    | nil => simp at hb
    | cons c back =>
      rcases List.mem_append.mp hb with hb | hb
      · exact h.drained b hb
      · obtain rfl := List.mem_singleton.mp hb
        exact BufferBlock.stored_new _ _

/-- An operation on `_buffer_write` that leaves a block of the pool in it. -/
theorem WriteShape.set {w w' : BufferBlock} (h : WriteShape q front (w :: back)) (hw' : w'.Valid)
    (hN : w'.totalSize = q.blockLength) :
    WriteShape { q with bufferList := q.bufferList.set front.length w' } front (w' :: back) := by
  refine ⟨h.pos, ?_, by simpa using h.write_eq, ?_, h.drained, h.filled⟩
  · simp [h.list_eq]
  · intro b hb
    rcases List.mem_append.mp hb with hb | hb
    · exact h.pool b (List.mem_append_left _ hb)
    · rcases List.mem_cons.mp hb with rfl | hb
      · exact ⟨hw', hN⟩
      · exact h.pool b (List.mem_append_right _ (List.mem_cons_of_mem _ hb))

/-- Moving `_buffer_write` to the next block, when something is stored in the one it leaves. -/
theorem WriteShape.next {w : BufferBlock} (h : WriteShape q front (w :: back))
    (hw : w.stored ≠ []) :
    WriteShape { q with bufferWrite := q.getNext front.length } (front ++ [w]) back := by
  refine ⟨h.pos, by simp [h.list_eq], ?_, by simpa using h.pool, ?_, ?_⟩
  · simp only [BufferQueue.getNext, h.list_eq, List.length_append, List.length_cons,
      List.length_nil]
    cases back <;> simp
  · exact fun b hb => h.drained b (List.mem_of_mem_tail hb)
  · intro b hb
    cases front with
    | nil => simp at hb
    | cons c front =>
      rcases List.mem_append.mp hb with hb | hb
      · exact h.filled b hb
      · rw [List.mem_singleton.mp hb]
        exact hw

theorem WriteShape.writeBlock {w : BufferBlock} (h : WriteShape q front (w :: back)) :
    q.writeBlock = some (front.length, w) := by
  rw [BufferQueue.writeBlock, h.write_eq, if_neg (by simp), h.list_eq]
  simp

/-- The room of a queue is that of the blocks from `_buffer_write` on. -/
theorem WriteShape.roomy (h : WriteShape q front back)
    (hroom : back ≠ [] → ∃ b ∈ back, b.stored.length < b.totalSize) :
    Roomy q.bufferList q.bufferWrite := by
  intro t ht
  rw [h.write_eq] at ht
  split_ifs at ht with hnil
  cases ht
  rw [h.list_eq, List.drop_left]
  exact hroom hnil

/-! ## Write -/

/-- A round of the loop of `Write`. -/
theorem writeLoop_succ {w : BufferBlock} (h : WriteShape q front (w :: back)) (fuel : ℕ)
    (data : List UInt8) :
    BufferQueue.writeLoop (fuel + 1) q data =
      let r := w.write data
      let q' := { q with bufferList := q.bufferList.set front.length r.2 }
      if r.1 ≥ data.length then (r.1, q')
      else
        let r' := BufferQueue.writeLoop fuel { q' with bufferWrite := q'.getNext front.length }
          (data.drop r.1)
        (r.1 + r'.1, r'.2) := by
  have hwrite : q.bufferWrite ≠ none := by simp [h.write_eq]
  rw [BufferQueue.writeLoop, if_neg hwrite]
  simp only [h.writeBlock]

/-- Where `_buffer_write` is null, a round starts by appending a block. -/
theorem writeLoop_append (h : WriteShape q front []) (fuel : ℕ) (data : List UInt8) :
    BufferQueue.writeLoop (fuel + 1) q data = BufferQueue.writeLoop (fuel + 1) q.append data := by
  have hnone : q.bufferWrite = none := h.write_eq
  have hsome : q.append.bufferWrite ≠ none := by simp [BufferQueue.append, hnone]
  rw [BufferQueue.writeLoop, BufferQueue.writeLoop, if_pos hnone, if_neg hsome]

/-- What the loop of `Write` leaves behind when it has stored `data`. -/
def Written (q : BufferQueue) (data : List UInt8) (r : ℕ × BufferQueue) : Prop :=
  r.1 = data.length ∧ storedList r.2.bufferList = storedList q.bufferList ++ data ∧
    Shape q.blockLength r.2.bufferList r.2.bufferWrite ∧ r.2.blockLength = q.blockLength ∧
    r.2.canReadLength = q.canReadLength

/-- The loop of `Write` stores all bytes, given a round for each of them, and one more when
`_buffer_write` may be full. -/
theorem writeLoop_spec {fuel : ℕ} {data : List UInt8} (h : WriteShape q front back)
    (hdata : 0 < data.length)
    (hfuel : data.length < fuel ∨ Drained back ∧ data.length ≤ fuel) :
    Written q data (BufferQueue.writeLoop fuel q data) := by
  induction fuel generalizing q front back data with
  | zero => omega
  | succ fuel ih =>
    have hround : ∀ {q w back}, WriteShape q front (w :: back) →
        (data.length < fuel + 1 ∨ Drained (w :: back) ∧ data.length ≤ fuel + 1) →
        Written q data (BufferQueue.writeLoop (fuel + 1) q data) := by
      intro q w back h hfuel
      obtain ⟨hw, hN⟩ := h.pool w (List.mem_append_right _ List.mem_cons_self)
      obtain ⟨hn, hvalid, hsize, hstored⟩ := hw.write data
      have hset := h.set hvalid (hsize.trans hN)
      have hdrained : Drained back := h.drained
      rw [writeLoop_succ h]
      simp only
      split_ifs with hall
      · refine ⟨by omega, ?_, hset.shape (by simp), rfl, rfl⟩
        rw [hset.list_eq, h.list_eq]
        simp only [storedList_append, storedList_cons, hstored, hdrained.storedList,
          List.append_nil]
        rw [List.take_of_length_le (by omega), List.append_assoc]
      · -- the block is full now, and the rest goes to the next one
        have hle := hw.getCanReadLength_le
        have hlen := w.length_stored
        have hroom : (w.write data).1 = w.totalSize - w.stored.length := by omega
        have hpos := h.pos
        have hne : (w.write data).2.stored ≠ [] := by
          rw [hstored, ← List.length_pos_iff, List.length_append, List.length_take]
          omega
        obtain ⟨hn', hstored', hrest⟩ := ih (hset.next hne)
          (show 0 < (data.drop (w.write data).1).length by rw [List.length_drop]; omega)
          (Or.inr ⟨hdrained, by
            rw [List.length_drop]
            rcases hfuel with hfuel | ⟨hback, hfuel⟩
            · omega
            · have hempty := congrArg List.length (hback w List.mem_cons_self)
              rw [List.length_nil] at hempty
              omega⟩)
        refine ⟨by rw [hn', List.length_drop]; omega, ?_, hrest⟩
        rw [hstored', hset.list_eq, h.list_eq]
        simp only [storedList_append, storedList_cons, hstored, hdrained.storedList,
          List.append_nil, List.append_assoc]
        rw [hroom, List.take_append_drop]
    cases back with
    | nil =>
      obtain ⟨w, hw, happend, hlist⟩ := h.append
      rw [writeLoop_append h]
      obtain ⟨hn, hstored, hrest⟩ := hround happend
        (Or.inr ⟨by simp [Drained, hw], by have := hfuel; omega⟩)
      rw [hlist, storedList_append, storedList_cons, hw] at hstored
      exact ⟨hn, by simpa using hstored, hrest⟩
    | cons w back => exact hround h hfuel

/-! ## MoveWritePt -/

/-- What the free places of a list of blocks hold. -/
def freeList (list : List BufferBlock) : List UInt8 := list.flatMap BufferBlock.freeBytes

theorem freeList_ne_nil {list : List BufferBlock} :
    freeList list ≠ [] ↔ ∃ b ∈ list, b.stored.length < b.totalSize := by
  have hfree : ∀ b : BufferBlock, b.freeBytes ≠ [] ↔ b.stored.length < b.totalSize := fun b => by
    rw [← List.length_pos_iff, b.length_freeBytes, ← b.length_stored, Nat.sub_pos_iff_lt]
  rw [freeList, ne_eq, List.flatMap_eq_nil_iff]
  push Not
  simp only [hfree]

@[simp] theorem freeList_cons (b : BufferBlock) (list : List BufferBlock) :
    freeList (b :: list) = b.freeBytes ++ freeList list := rfl

theorem freeList_append (list list' : List BufferBlock) :
    freeList (list ++ list') = freeList list ++ freeList list' := List.flatMap_append

/-- `MoveWritePt` of a block by a length that is not negative. -/
theorem BufferBlock.Valid.moveWritePt_nat {b : BufferBlock} (h : b.Valid) (len : ℕ) :
    (b.moveWritePt len).1 = min len b.freeBytes.length ∧ (b.moveWritePt len).2.Valid ∧
      (b.moveWritePt len).2.totalSize = b.totalSize ∧
      (b.moveWritePt len).2.stored = b.stored ++ b.freeBytes.take len := by
  have hle := h.getCanReadLength_le
  rw [b.length_freeBytes]
  rcases Nat.eq_zero_or_pos len with rfl | hpos
  · obtain ⟨hn, hvalid, hsize, hstored⟩ := h.moveWritePt_back 0
    exact ⟨by simpa using hn, hvalid, hsize, by simpa using hstored⟩
  · obtain ⟨hn, hrest⟩ := h.moveWritePt (show (0 : ℤ) < len by omega)
    rw [b.length_stored] at hn
    exact ⟨by omega, hrest⟩

/-- The loop of `MoveWritePt` takes in free places, block after block, and says how many. -/
theorem moveWritePtLoop_spec {fuel : ℕ} {w : BufferBlock} (h : WriteShape q front (w :: back))
    (len : ℕ) (hfuel : back.length < fuel) :
    let r := BufferQueue.moveWritePtLoop fuel q len
    r.1 = min len (freeList (w :: back)).length ∧
      storedList r.2.bufferList =
        storedList q.bufferList ++ (freeList (w :: back)).take len ∧
      Shape q.blockLength r.2.bufferList r.2.bufferWrite ∧ r.2.blockLength = q.blockLength ∧
      r.2.canReadLength = q.canReadLength ∧
      (len < (freeList (w :: back)).length → Roomy r.2.bufferList r.2.bufferWrite) := by
  induction fuel generalizing q front back w len with
  | zero => omega
  | succ fuel ih =>
    obtain ⟨hw, hN⟩ := h.pool w (List.mem_append_right _ List.mem_cons_self)
    obtain ⟨hn, hvalid, hsize, hstored⟩ := hw.moveWritePt_nat len
    have hset := h.set hvalid (hsize.trans hN)
    have hdrained : Drained back := h.drained
    rw [BufferQueue.moveWritePtLoop]
    simp only [h.writeBlock, hn]
    rw [freeList_cons, List.length_append, List.take_append]
    split_ifs with hstop
    · have htail : (freeList back).take (len - w.freeBytes.length) = [] ∧
          min len (w.freeBytes.length + (freeList back).length) = min len w.freeBytes.length := by
        rcases hstop with hlast | hle
        · obtain rfl : back = [] := by
            rw [List.length_set, h.list_eq, List.length_append, List.length_cons] at hlast
            exact List.eq_nil_of_length_eq_zero (by omega)
          exact ⟨by simp [freeList], by simp [freeList]⟩
        · rw [Nat.sub_eq_zero_of_le (by omega), List.take_zero]
          exact ⟨rfl, by omega⟩
      refine ⟨by rw [htail.2], ?_, hset.shape (by simp), rfl, rfl, fun hless => ?_⟩
      · rw [hset.list_eq, h.list_eq, htail.1]
        simp [hstored, hdrained.storedList]
      · refine hset.roomy fun _ => ?_
        have hfree := w.length_freeBytes
        have hlen := w.length_stored
        rcases Nat.lt_or_ge len w.freeBytes.length with hlt | hge
        · refine ⟨_, List.mem_cons_self, ?_⟩
          rw [hstored, hsize, List.length_append, List.length_take]
          omega
        · -- the block is full, and one behind it is not
          have hne : freeList back ≠ [] := by
            rw [← List.length_pos_iff]
            omega
          obtain ⟨b, hb, hroom⟩ := freeList_ne_nil.mp hne
          exact ⟨b, List.mem_cons_of_mem _ hb, hroom⟩
    · rw [not_or, h.list_eq, List.length_set, List.length_append, List.length_cons] at hstop
      have hle := hw.getCanReadLength_le
      have hpos := h.pos
      have hlen := w.length_stored
      have hfree := w.length_freeBytes
      have hall : w.freeBytes.take len = w.freeBytes := List.take_of_length_le (by omega)
      have hne : (w.moveWritePt len).2.stored ≠ [] := by
        rw [hstored, hall, ← List.length_pos_iff, List.length_append]
        omega
      obtain ⟨next, back, rfl⟩ := List.exists_cons_of_length_pos (l := back) (by omega)
      obtain ⟨hn', hstored', hrest⟩ := ih (hset.next hne) (len - w.freeBytes.length)
        (by simpa using hfuel)
      have hempty : storedList back = [] :=
        Drained.storedList fun c hc => hdrained c (List.mem_cons_of_mem _ hc)
      have hleft : (len : ℤ) - (min len w.freeBytes.length : ℕ) =
          (len - w.freeBytes.length : ℕ) := by omega
      rw [hleft]
      obtain ⟨hshape, hsize', hcount, hroom⟩ := hrest
      refine ⟨by rw [hn']; omega, ?_, hshape, hsize', hcount, fun hless => hroom (by omega)⟩
      rw [hstored', hset.list_eq, h.list_eq, hall]
      simp only [storedList_append, storedList_cons, hstored, hall,
        hdrained next List.mem_cons_self, hempty, List.nil_append, List.append_assoc]

/-- `MoveWritePt` forward stores what the free places hold. -/
theorem moveWritePt_spec {w : BufferBlock} (h : WriteShape q front (w :: back)) {len : ℕ}
    (hlen : len ≤ (freeList (w :: back)).length) :
    (q.moveWritePt len).1 = len ∧
      storedList (q.moveWritePt len).2.bufferList =
        storedList q.bufferList ++ (freeList (w :: back)).take len ∧
      Shape q.blockLength (q.moveWritePt len).2.bufferList (q.moveWritePt len).2.bufferWrite ∧
      (q.moveWritePt len).2.blockLength = q.blockLength ∧
      (q.moveWritePt len).2.canReadLength = q.canReadLength + UInt32.ofNat len ∧
      (len < (freeList (w :: back)).length →
        Roomy (q.moveWritePt len).2.bufferList (q.moveWritePt len).2.bufferWrite) := by
  obtain ⟨hn, hstored, hshape, hsize, hcount, hroom⟩ := moveWritePtLoop_spec h len
    (show back.length < q.bufferList.length by
      rw [h.list_eq, List.length_append, List.length_cons]
      omega)
  rw [min_eq_left hlen] at hn
  unfold BufferQueue.moveWritePt
  simp only [ge_iff_le, Int.natCast_nonneg, if_true]
  exact ⟨hn, hstored, hshape, hsize, by rw [hcount, hn, Int.toNat_natCast], hroom⟩

/-- Moving `_buffer_write` back to the block before it, when it has been emptied. -/
theorem WriteShape.prev {c w : BufferBlock} (h : WriteShape q (front ++ [c]) (w :: back))
    (hw : w.stored = []) :
    WriteShape { q with bufferWrite := some front.length } front (c :: w :: back) := by
  refine ⟨h.pos, by simp [h.list_eq], by simp, by simpa using h.pool, ?_, ?_⟩
  · intro b hb
    rcases List.mem_cons.mp hb with rfl | hb
    · exact hw
    · exact h.drained b hb
  · intro b hb
    cases front with
    | nil => simp at hb
    | cons d front => exact h.filled b (List.mem_append_left _ hb)

/-- The loop of `MoveWritePt` for a negative length drops the newest bytes, block after block, and
says how many. -/
theorem moveWritePtBackLoop_spec {fuel : ℕ} {w : BufferBlock}
    (h : WriteShape q front (w :: back)) (len : ℕ) (hfuel : front.length < fuel) :
    let r := BufferQueue.moveWritePtBackLoop fuel q (-len)
    r.1 = min len (storedList q.bufferList).length ∧
      storedList r.2.bufferList =
        (storedList q.bufferList).take ((storedList q.bufferList).length - len) ∧
      Shape q.blockLength r.2.bufferList r.2.bufferWrite ∧ r.2.blockLength = q.blockLength ∧
      r.2.canReadLength = q.canReadLength ∧
      (0 < len → Roomy r.2.bufferList r.2.bufferWrite) := by
  induction fuel generalizing q front back w len with
  | zero => omega
  | succ fuel ih =>
    obtain ⟨hw, hN⟩ := h.pool w (List.mem_append_right _ List.mem_cons_self)
    obtain ⟨hn, hvalid, hsize, hstored⟩ := hw.moveWritePt_back len
    have hset := h.set hvalid (hsize.trans hN)
    have hdrained : Drained back := h.drained
    have hall : storedList q.bufferList = storedList front ++ w.stored := by
      simp [h.list_eq, hdrained.storedList]
    rw [BufferQueue.moveWritePtBackLoop]
    simp only [h.writeBlock, hn, neg_neg]
    rw [hall, List.length_append]
    split_ifs with hstop
    · have hfront : len ≤ w.stored.length ∨ storedList front = [] := by
        rcases hstop with hlast | hle
        · exact Or.inr (by rw [List.eq_nil_of_length_eq_zero hlast, storedList_nil])
        · exact Or.inl (by omega)
      refine ⟨?_, ?_, hset.shape (by simp), rfl, rfl, fun hpos => hset.roomy fun _ => ?_⟩
      · rcases hfront with hle | hnil
        · omega
        · rw [hnil]
          simp
      · rw [hset.list_eq]
        simp only [storedList_append, storedList_cons, hstored, hdrained.storedList,
          List.append_nil]
        rcases hfront with hle | hnil
        · rw [List.take_append, List.take_of_length_le (l := storedList front) (by omega),
            show (storedList front).length + w.stored.length - len - (storedList front).length =
              w.stored.length - len by omega]
        · simp [hnil]
      · refine ⟨_, List.mem_cons_self, ?_⟩
        have hle := hw.getCanReadLength_le
        have hlen := w.length_stored
        have hsome := hw.pos
        rw [hstored, hsize, List.length_take]
        omega
    · -- the block is empty now, and the bytes before it go next
      rw [not_or] at hstop
      have hempty : (w.moveWritePt (-len)).2.stored = [] := by
        rw [hstored, Nat.sub_eq_zero_of_le (by omega), List.take_zero]
      obtain ⟨front, c, rfl⟩ : ∃ front' c, front = front' ++ [c] := by
        rcases List.eq_nil_or_concat front with rfl | ⟨front', c, hfront⟩
        · exact absurd rfl hstop.1
        · exact ⟨front', c, by simpa using hfront⟩
      rw [List.length_append, List.length_singleton] at hfuel
      obtain ⟨hn', hstored', hrest⟩ := ih (hset.prev hempty) (len - w.stored.length) (by omega)
      have hleft : (-len : ℤ) + (min len w.stored.length : ℕ) =
          -((len - w.stored.length : ℕ) : ℤ) := by omega
      have hlist : storedList (q.bufferList.set (front ++ [c]).length (w.moveWritePt (-len)).2) =
          storedList (front ++ [c]) :=
        (congrArg storedList hset.list_eq).trans (by simp [hempty, hdrained.storedList])
      simp only [hlist] at hn' hstored'
      rw [hleft, List.length_append, List.length_singleton, Nat.add_sub_cancel]
      rw [List.length_append, List.length_singleton] at hn' hstored' hrest
      obtain ⟨hshape, hsize', hcount, hroom⟩ := hrest
      refine ⟨by rw [hn']; omega, ?_, hshape, hsize', hcount, fun _ => hroom (by omega)⟩
      rw [hstored', List.take_append_of_le_length (by omega)]
      congr 1
      omega

/-! ## What `readv` puts into free pieces -/

/-- The blocks after `data` has been copied into their free places. -/
def fillList : List BufferBlock → List UInt8 → List BufferBlock
  | [], _ => []
  | b :: rest, data =>
    { b with mem := b.fillMem (data.take b.freeBytes.length) } ::
      fillList rest (data.drop b.freeBytes.length)

theorem scatter_append (list : List BufferBlock) (vec vec' : List Piece) (data : List UInt8) :
    scatter list (vec ++ vec') data =
      scatter (scatter list vec data) vec' (data.drop (vecLength vec)) := by
  induction vec generalizing list data with
  | nil => simp [scatter, vecLength]
  | cons p vec ih =>
    rw [List.cons_append, scatter, ih, scatter, List.drop_drop]
    simp [vecLength]

/-- Pieces that are null take nothing, so leaving them out makes no difference. -/
theorem scatter_filter (list : List BufferBlock) (vec : List Piece) (data : List UInt8) :
    scatter list (vec.filter fun p => 0 < p.2.len) data = scatter list vec data := by
  induction vec generalizing list data with
  | nil => rfl
  | cons p vec ih =>
    by_cases hp : 0 < p.2.len
    · rw [List.filter_cons_of_pos (by simpa using hp), scatter, scatter, ih]
    · rw [List.filter_cons_of_neg (by simpa using hp), scatter, ih, Nat.eq_zero_of_not_pos hp,
        List.take_zero, List.drop_zero]
      simp only [blit_nil]
      exact congrArg (scatter · vec data) (List.modify_id _ _).symm

theorem scatter_piecesOf {list : List BufferBlock} {t : ℕ} {b : BufferBlock}
    (hb : list[t]? = some b) (v : Iovec × Iovec) (data : List UInt8) :
    scatter list (piecesOf t v) data = list.set t
      { b with mem := blit (blit b.mem v.1.base (data.take v.1.len)) v.2.base
                        ((data.drop v.1.len).take v.2.len) } := by
  obtain ⟨ht, rfl⟩ := List.getElem?_eq_some_iff.mp hb
  rw [piecesOf, scatter_filter, scatter, scatter, scatter, List.modify_modify_eq]
  refine List.ext_getElem? fun i => ?_
  rw [List.getElem?_modify, List.getElem?_set]
  split_ifs with hi
  · subst hi
    simp [ht]
  · simp

/-- Copying `data` into the free pieces of a part of the list. -/
theorem scatter_freePieces {N : ℕ} (pre : List BufferBlock) {mid : List BufferBlock}
    (post : List BufferBlock) (hmid : PoolBlocks N mid) {data : List UInt8}
    (hdata : data.length ≤ (freeList mid).length) :
    scatter (pre ++ mid ++ post) (BufferQueue.freePieces pre.length mid) data =
      pre ++ fillList mid data ++ post := by
  induction mid generalizing pre data with
  | nil => rfl
  | cons b mid ih =>
    obtain ⟨hb, hN⟩ := hmid b List.mem_cons_self
    obtain ⟨hlen, hblit⟩ := hb.getFreeMemoryBlock
    rw [b.length_stored, ← b.length_freeBytes] at hlen hblit
    have hget : (pre ++ b :: mid ++ post)[pre.length]? = some b := by simp
    rw [BufferQueue.freePieces, scatter_append, scatter_piecesOf hget, vecLength_piecesOf, hlen]
    have hblock := hblit (data.take b.freeBytes.length) (List.length_take_le _ _)
    rw [List.take_take, min_eq_left (by omega), List.drop_take,
      show b.freeBytes.length - b.getFreeMemoryBlock.1.len = b.getFreeMemoryBlock.2.len by omega]
      at hblock
    rw [hblock, fillList]
    have hset : ∀ b' : BufferBlock, (pre ++ b :: mid ++ post).set pre.length b' =
        (pre ++ [b']) ++ mid ++ post := by simp
    have hrest := fun b' => ih (pre ++ [b']) (fun c hc => hmid c (List.mem_cons_of_mem _ hc))
      (show (data.drop b.freeBytes.length).length ≤ _ by
        rw [freeList_cons, List.length_append] at hdata
        rw [List.length_drop]
        omega)
    simp only [List.length_append, List.length_singleton] at hrest
    rw [hset, hrest]
    simp

/-- Filling free places changes nothing that is stored, and the free places begin with the bytes. -/
theorem fillList_spec {N : ℕ} {list : List BufferBlock} (h : PoolBlocks N list)
    {data : List UInt8} (hdata : data.length ≤ (freeList list).length) :
    PoolBlocks N (fillList list data) ∧
      (fillList list data).map BufferBlock.stored = list.map BufferBlock.stored ∧
      (freeList (fillList list data)).length = (freeList list).length ∧
      (freeList (fillList list data)).take data.length = data := by
  induction list generalizing data with
  | nil =>
    obtain rfl : data = [] := List.eq_nil_of_length_eq_zero (by simpa [freeList] using hdata)
    exact ⟨h, rfl, rfl, rfl⟩
  | cons b list ih =>
    obtain ⟨hb, hN⟩ := h b List.mem_cons_self
    have hle := hb.getCanReadLength_le
    have hfree := b.length_freeBytes
    rw [freeList_cons, List.length_append] at hdata
    obtain ⟨hvalid, hstored, htake⟩ := hb.fill (data.take b.freeBytes.length)
      (by rw [List.length_take]; omega)
    obtain ⟨hpool, hmap, hlen, hrest⟩ := ih (fun c hc => h c (List.mem_cons_of_mem _ hc))
      (show (data.drop b.freeBytes.length).length ≤ _ by rw [List.length_drop]; omega)
    set b' : BufferBlock := { b with mem := b.fillMem (data.take b.freeBytes.length) }
    have hfree' : b'.freeBytes.length = b.freeBytes.length := by
      rw [b'.length_freeBytes, hfree]
      rfl
    rw [fillList]
    refine ⟨.cons hvalid hN hpool, by rw [List.map_cons, hstored, hmap]; rfl, ?_, ?_⟩
    · rw [freeList_cons, freeList_cons, List.length_append, List.length_append, hfree', hlen]
    · rw [freeList_cons, List.take_append, hfree']
      rw [List.length_take, min_comm] at htake
      rw [List.length_drop] at hrest
      rw [hrest, List.take_eq_take_min, hfree']
      exact (congrArg (· ++ _) htake).trans (List.take_append_drop _ _)

theorem storedList_eq_flatten (list : List BufferBlock) :
    storedList list = (list.map BufferBlock.stored).flatten := by
  rw [storedList, List.flatMap_def]

theorem drained_iff (list : List BufferBlock) :
    Drained list ↔ ∀ bytes ∈ list.map BufferBlock.stored, bytes = [] := by
  simp [Drained]

/-- A `readv` into the free pieces of `mid`: what is stored and the shape stay, and the free places
from `_buffer_write` on begin with the bytes. -/
theorem WriteShape.readv {mid post : List BufferBlock} (h : WriteShape q front (mid ++ post))
    (hmid : mid ≠ []) {data : List UInt8} (hdata : data.length ≤ (freeList mid).length) :
    ∃ w back, WriteShape (q.readv (BufferQueue.freePieces front.length mid) data) front
        (w :: back) ∧
      storedList (front ++ w :: back) = storedList q.bufferList ∧
      (freeList (w :: back)).take data.length = data ∧
      (freeList mid).length ≤ (freeList (w :: back)).length := by
  have hpool : PoolBlocks q.blockLength mid := fun b hb =>
    h.pool b (List.mem_append_right _ (List.mem_append_left _ hb))
  obtain ⟨hpool', hmap, hfree, htake⟩ := fillList_spec hpool hdata
  have hscatter := scatter_freePieces front post hpool hdata
  rw [List.append_assoc, ← h.list_eq, List.append_assoc] at hscatter
  have hmap' : (fillList mid data ++ post).map BufferBlock.stored =
      (mid ++ post).map BufferBlock.stored := by
    rw [List.map_append, List.map_append, hmap]
  have hfill : fillList mid data ++ post ≠ [] := by
    intro hnil
    rw [hnil] at hmap'
    simp [hmid] at hmap'
  obtain ⟨w, back, hcons⟩ := List.exists_cons_of_ne_nil hfill
  have htail : (w :: back).map BufferBlock.stored = (mid ++ post).map BufferBlock.stored := by
    rw [← hcons, hmap']
  refine ⟨w, back, ⟨h.pos, ?_, ?_, ?_, ?_, h.filled⟩, ?_, ?_, ?_⟩
  · rw [← hcons]
    exact hscatter
  · rw [if_neg (by simp)]
    exact h.write_eq.trans (if_neg (by simp [hmid]))
  · intro b hb
    rw [← hcons] at hb
    rcases List.mem_append.mp hb with hb | hb
    · exact h.pool b (List.mem_append_left _ hb)
    · rcases List.mem_append.mp hb with hb | hb
      · exact hpool' b hb
      · exact h.pool b (List.mem_append_right _ (List.mem_append_right _ hb))
  · rw [drained_iff, List.map_tail, htail, ← List.map_tail, ← drained_iff]
    exact h.drained
  · rw [storedList_append, storedList_eq_flatten (w :: back), htail, ← storedList_eq_flatten,
      ← storedList_append, h.list_eq]
  · rw [← hcons, freeList_append, List.take_append_of_le_length (by omega), htake]
  · rw [← hcons, freeList_append, List.length_append]
    omega

/-! ## GetFreeMemoryBlock -/

theorem length_freeList_cons (b : BufferBlock) (list : List BufferBlock) :
    (freeList (b :: list)).length = b.freeBytes.length + (freeList list).length := by simp

/-- The pieces offered have the length of the free places. -/
theorem vecLength_freePieces {N t : ℕ} {list : List BufferBlock} (h : PoolBlocks N list) :
    vecLength (BufferQueue.freePieces t list) = (freeList list).length := by
  induction list generalizing t with
  | nil => rfl
  | cons b list ih =>
    obtain ⟨hb, -⟩ := h b List.mem_cons_self
    have hlen := hb.getFreeMemoryBlock.1
    rw [b.length_stored, ← b.length_freeBytes] at hlen
    rw [BufferQueue.freePieces, vecLength_append, vecLength_piecesOf, hlen,
      ih (fun c hc => h c (List.mem_cons_of_mem _ hc)), length_freeList_cons]

/-- What the loop of `GetFreeMemoryBlock` puts out, with the blocks `mid` behind it: the free pieces
of the next blocks, as many bytes as are asked for, and a queue that stores what it stored. -/
def Offered (q : BufferQueue) (front mid : List BufferBlock) (size : ℕ)
    (r : List Piece × BufferQueue) : Prop :=
  ∃ mid' post, WriteShape r.2 front (mid ++ mid' ++ post) ∧
    r.1 = BufferQueue.freePieces (front.length + mid.length) mid' ∧
    storedList r.2.bufferList = storedList q.bufferList ∧
    (r.2.blockLength = q.blockLength ∧ r.2.canReadLength = q.canReadLength) ∧
    size ≤ vecLength r.1 ∧ (size = 0 ∨ mid' ≠ [])

/-- A round of the loop. -/
theorem getFreeMemoryBlockLoop_succ {mid post : List BufferBlock} {b : BufferBlock}
    (h : WriteShape q front (mid ++ b :: post)) (fuel : ℕ) {size : ℕ} (hsize : size ≠ 0) :
    BufferQueue.getFreeMemoryBlockLoop (fuel + 1) q (some (front.length + mid.length)) size =
      let r := BufferQueue.getFreeMemoryBlockLoop fuel q
        (if post = [] then none else some (front.length + (mid ++ [b]).length))
        (size - b.freeBytes.length)
      (piecesOf (front.length + mid.length) b.getFreeMemoryBlock ++ r.1, r.2) := by
  obtain ⟨hb, -⟩ := h.pool b (by simp)
  have hlen := hb.getFreeMemoryBlock.1
  rw [b.length_stored, ← b.length_freeBytes] at hlen
  have hget : q.bufferList[front.length + mid.length]? = some b := by
    rw [h.list_eq, ← List.append_assoc, ← List.length_append, List.getElem?_append_right le_rfl]
    simp
  have hnext : q.getNext (front.length + mid.length) =
      if post = [] then none else some (front.length + (mid ++ [b]).length) := by
    rw [BufferQueue.getNext, h.list_eq]
    cases post <;> simp <;> omega
  rw [BufferQueue.getFreeMemoryBlockLoop, if_neg hsize]
  simp only [Option.getD_some, reduceCtorEq, if_false, hget, hnext]
  rw [Nat.sub_sub, hlen]

/-- At the end of the list a round starts by appending a block. -/
theorem getFreeMemoryBlockLoop_append {mid : List BufferBlock} (h : WriteShape q front mid)
    (fuel : ℕ) {size : ℕ} (hsize : size ≠ 0) :
    BufferQueue.getFreeMemoryBlockLoop (fuel + 1) q none size =
      BufferQueue.getFreeMemoryBlockLoop (fuel + 1) q.append (some (front.length + mid.length))
        size := by
  have hlen : q.bufferList.length = front.length + mid.length := by simp [h.list_eq]
  rw [BufferQueue.getFreeMemoryBlockLoop, BufferQueue.getFreeMemoryBlockLoop, if_neg hsize,
    if_neg hsize]
  simp only [Option.getD_none, Option.getD_some, if_true, reduceCtorEq, if_false, hlen]

/-- The loop of `GetFreeMemoryBlock` offers what is asked for, given a round for each byte, and one
more when the next block may be full. -/
theorem getFreeMemoryBlockLoop_spec {fuel size : ℕ} (mid post : List BufferBlock)
    (h : WriteShape q front (mid ++ post))
    (hfuel : size < fuel ∨ Drained post ∧ size ≤ fuel) :
    Offered q front mid size (BufferQueue.getFreeMemoryBlockLoop fuel q
      (if post = [] then none else some (front.length + mid.length)) size) := by
  induction fuel generalizing q mid post size with
  | zero =>
    have hzero : size = 0 := by omega
    refine ⟨[], post, by simpa [BufferQueue.getFreeMemoryBlockLoop] using h, ?_⟩
    exact ⟨rfl, rfl, ⟨rfl, rfl⟩, by omega, Or.inl hzero⟩
  | succ fuel ih =>
    by_cases hsize : size = 0
    · simp only [BufferQueue.getFreeMemoryBlockLoop, if_pos hsize]
      exact ⟨[], post, by simpa using h, rfl, rfl, ⟨rfl, rfl⟩, by omega, Or.inl hsize⟩
    have hround : ∀ {q b post}, WriteShape q front (mid ++ b :: post) →
        (size < fuel + 1 ∨ Drained (b :: post) ∧ size ≤ fuel + 1) →
        Offered q front mid size (BufferQueue.getFreeMemoryBlockLoop (fuel + 1) q
          (some (front.length + mid.length)) size) := by
      intro q b post h hfuel
      obtain ⟨hb, hN⟩ := h.pool b (by simp)
      have hlen := hb.getFreeMemoryBlock.1
      rw [b.length_stored, ← b.length_freeBytes] at hlen
      have hdrained : Drained post := by
        refine fun c hc => h.drained c ?_
        cases mid <;> simp [hc]
      have hleft : size - b.freeBytes.length ≤ fuel := by
        rcases hfuel with hfuel | ⟨hback, hfuel⟩
        · omega
        · have hempty := BufferBlock.stored_eq_nil.mp (hback b List.mem_cons_self)
          have hpos := h.pos
          rw [b.length_freeBytes]
          omega
      rw [getFreeMemoryBlockLoop_succ h fuel hsize]
      have hassoc : mid ++ b :: post = mid ++ [b] ++ post := by simp
      rw [hassoc] at h
      obtain ⟨mid', post', hshape, hvec, hstored, hsame, hle, -⟩ :=
        ih (mid ++ [b]) post h (Or.inr ⟨hdrained, hleft⟩)
      refine ⟨b :: mid', post', by simpa using hshape, ?_, hstored, hsame, ?_, Or.inr (by simp)⟩
      · simp only [hvec, BufferQueue.freePieces]
        rw [List.length_append, List.length_singleton, Nat.add_assoc]
      · rw [vecLength_append, vecLength_piecesOf, hlen]
        omega
    cases post with
    | nil =>
      rw [List.append_nil] at h
      rw [if_pos rfl, getFreeMemoryBlockLoop_append h fuel hsize]
      obtain ⟨w, hw, happend, hlist⟩ := h.append
      obtain ⟨mid', post', hshape, hvec, hstored, hrest⟩ := hround happend
        (Or.inr ⟨by simp [Drained, hw], by omega⟩)
      rw [hlist, storedList_append, storedList_cons, hw] at hstored
      exact ⟨mid', post', hshape, hvec, by simpa using hstored, hrest⟩
    | cons b post =>
      rw [if_neg (by simp)]
      exact hround h hfuel

end CodeTest.CppNet
