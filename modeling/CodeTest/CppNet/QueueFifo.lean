import CodeTest.CppNet.BlockFifo
import CodeTest.CppNet.QueueWritten

/-!
# The buffer queue as a byte queue without bound

`QueueStores q s` says that the queue `q` stores the bytes `s`, and `QueueHolds q s` that it also
counts them right, modulo `2 ^ 32`. Every operation keeps it, with what it does to `s`, whatever the
length of a block is; so a fresh queue shows what the machine `QueueFifo.step` on lists of bytes
shows, along every sequence of operations. `QueueRange` keeps the length of a block and those of the
operations below `2 ^ 31`; the bytes stored may be any number. `fill` is what `RWSocket::Recv` does:
a `readv` into free pieces and a `MoveWritePt`.
-/

namespace CodeTest.CppNet

/-- The queue stores the bytes `s`. -/
structure QueueStores (q : BufferQueue) (s : List UInt8) : Prop where
  pos : 0 < q.blockLength
  shape : Shape q.blockLength q.bufferList q.bufferWrite
  stored : storedList q.bufferList = s

/-- The queue stores the bytes `s` and counts them. -/
structure QueueHolds (q : BufferQueue) (s : List UInt8) : Prop extends QueueStores q s where
  count : q.canReadLength = UInt32.ofNat s.length

namespace BufferQueue

/-- `GetFreeMemoryBlock(size)`, a `readv` that puts `data` into the vector, and `MoveWritePt` by
what it returned. -/
def fill (q : BufferQueue) (size : ℕ) (data : List UInt8) : ℤ × BufferQueue :=
  let (vec, q) := q.getFreeMemoryBlock size
  (q.readv vec data).moveWritePt data.length

end BufferQueue

namespace QueueStores

variable {q : BufferQueue} {s : List UInt8}

theorem new {N : ℕ} (hN : 0 < N) (blockAlloter : ℕ → ℤ → UInt8) :
    QueueStores (BufferQueue.new N blockAlloter) [] := ⟨hN, Or.inl ⟨rfl, rfl⟩, rfl⟩

theorem clear (h : QueueStores q s) : QueueStores q.clear [] := ⟨h.pos, Or.inl ⟨rfl, rfl⟩, rfl⟩

theorem read (h : QueueStores q s) (len : ℕ) :
    (q.read len).1 = s.take len ∧ QueueStores (q.read len).2 (s.drop len) ∧
      (q.read len).2.canReadLength = q.canReadLength - UInt32.ofNat (s.take len).length := by
  obtain ⟨hbytes, hstored, hshape, -⟩ := readLoop_spec h.shape len
  rw [h.stored] at hbytes hstored
  unfold BufferQueue.read
  split_ifs with hzero
  · have hnil : s.take len = [] := by
      rcases hzero with hzero | rfl
      · rw [← h.stored, List.eq_nil_of_length_eq_zero hzero]
        simp
      · simp
    have hdrop := List.take_append_drop len s
    rw [hnil, List.nil_append] at hdrop
    rw [hnil, hdrop]
    exact ⟨rfl, h, by simp⟩
  · exact ⟨hbytes, ⟨h.pos, hshape, hstored⟩, by rw [← hbytes]⟩

theorem readNotMovePt (h : QueueStores q s) (len : ℕ) : q.readNotMovePt len = s.take len := by
  rw [← h.stored]
  exact readNotMovePtLoop_spec h.shape len

theorem moveReadPt (h : QueueStores q s) (len : ℕ) :
    (q.moveReadPt len).1 = (min len s.length : ℕ) ∧
      QueueStores (q.moveReadPt len).2 (s.drop len) ∧
      (q.moveReadPt len).2.canReadLength =
        q.canReadLength - UInt32.ofNat (s.take len).length := by
  obtain ⟨hn, hstored, hshape⟩ := moveReadPtLoop_spec h.shape len
  rw [h.stored] at hn hstored
  refine ⟨by exact_mod_cast hn, ⟨h.pos, hshape, hstored⟩, ?_⟩
  simp only [BufferQueue.moveReadPt]
  rw [hn, List.length_take]
  congr 2

theorem write (h : QueueStores q s) (str : List UInt8) :
    (q.write str).1 = str.length ∧ QueueStores (q.write str).2 (s ++ str) ∧
      (q.write str).2.canReadLength = q.canReadLength + UInt32.ofNat str.length := by
  unfold BufferQueue.write
  split_ifs with hzero
  · obtain rfl := List.eq_nil_of_length_eq_zero hzero
    exact ⟨rfl, by simpa using h, by simp⟩
  · obtain ⟨front, back, hshape, -⟩ := h.shape.writeShape h.pos
    obtain ⟨hn, hstored, hshape', hlen, hcount⟩ :=
      writeLoop_spec hshape (Nat.pos_of_ne_zero hzero) (Or.inl (Nat.lt_succ_self _))
    rw [h.stored] at hstored
    refine ⟨hn, ⟨by simpa only [hlen] using h.pos, ?_, hstored⟩, by simp only [hn, hcount]⟩
    simpa only [hlen] using hshape'

/-- `GetFreeMemoryBlock` offers the free places of the blocks from `_buffer_write` on, at least as
many as it is asked for, and changes nothing that is stored. -/
theorem getFreeMemoryBlock (h : QueueStores q s) (size : ℕ) :
    let r := q.getFreeMemoryBlock size
    QueueStores r.2 s ∧ r.2.canReadLength = q.canReadLength ∧ size ≤ vecLength r.1 ∧
      (Roomy q.bufferList q.bufferWrite → 0 < vecLength r.1) ∧
      ∃ front mid post, WriteShape r.2 front (mid ++ post) ∧ mid ≠ [] ∧
        r.1 = BufferQueue.freePieces front.length mid := by
  obtain ⟨front, back, hshape, -⟩ := h.shape.writeShape h.pos
  have hstores : ∀ {q' : BufferQueue} {mid post : List BufferBlock},
      WriteShape q' front (mid ++ post) → mid ≠ [] →
      storedList q'.bufferList = storedList q.bufferList → QueueStores q' s := by
    intro q' mid post hshape' hmid hstored
    exact ⟨hshape'.pos, hshape'.shape (by simp [hmid]), hstored.trans h.stored⟩
  unfold BufferQueue.getFreeMemoryBlock
  split_ifs with hsize hnull
  · obtain ⟨mid, post, hshape', hvec, hstored, ⟨-, hcount⟩, hle, hmid⟩ :=
      getFreeMemoryBlockLoop_spec [] back hshape (Or.inl (Nat.lt_succ_self size))
    rw [List.length_nil, Nat.add_zero, ← hshape.write_eq] at hshape' hvec hstored hcount hle
    have hne := hmid.resolve_left hsize.ne'
    exact ⟨hstores hshape' hne hstored, hcount, hle, fun _ => hsize.trans_le hle, front, mid, post,
      hshape', hne, hvec⟩
  · -- a block is appended and offered
    have hback : back = [] := by
      by_contra hne
      rw [hshape.write_eq, if_neg hne] at hnull
      cases hnull
    subst hback
    obtain ⟨w, hw, happend, hlist⟩ := hshape.append
    have hfront : q.bufferList = front := by simpa using hshape.list_eq
    have hstored : storedList q.append.bufferList = storedList q.bufferList := by
      rw [hlist, storedList_append, storedList_cons, hw]
      simp
    rw [List.nil_append, ← List.append_nil [w]] at happend
    have hvec : BufferQueue.freePieces (q.bufferWrite.getD q.bufferList.length)
        (q.append.bufferList.drop (q.bufferWrite.getD q.bufferList.length)) =
        BufferQueue.freePieces front.length [w] := by
      simp only [hlist, hnull, hfront, Option.getD_none, List.drop_left]
    obtain ⟨hvalid, -⟩ := happend.pool w (by simp)
    refine ⟨hstores happend (by simp) hstored, rfl, by omega, fun _ => ?_, front, [w], [], happend,
      by simp, hvec⟩
    simp only [hvec]
    rw [vecLength_freePieces (fun b hb => happend.pool b (by simp [List.mem_singleton.mp hb])),
      List.length_pos_iff, freeList_ne_nil]
    exact ⟨w, List.mem_singleton_self w, by rw [hw]; exact hvalid.pos⟩
  · -- the blocks that are there are offered
    have hback : back ≠ [] := fun hnil => hnull (by rw [hshape.write_eq, if_pos hnil])
    have hvec : BufferQueue.freePieces (q.bufferWrite.getD q.bufferList.length)
        (q.bufferList.drop (q.bufferWrite.getD q.bufferList.length)) =
        BufferQueue.freePieces front.length back := by
      simp only [hshape.write_eq, if_neg hback, hshape.list_eq, Option.getD_some, List.drop_left]
    refine ⟨h, rfl, by omega, fun hroom => ?_, front, back, [], by simpa using hshape, hback, hvec⟩
    obtain ⟨b, hb, hless⟩ := hroom front.length (by rw [hshape.write_eq, if_neg hback])
    rw [hshape.list_eq, List.drop_left] at hb
    simp only [hvec]
    rw [vecLength_freePieces (fun b hb => hshape.pool b (List.mem_append_right _ hb)),
      List.length_pos_iff, freeList_ne_nil]
    exact ⟨b, hb, hless⟩

/-- **Bytes that a `readv` puts into free pieces are stored behind what was there.** -/
theorem fill (h : QueueStores q s) (size : ℕ) {data : List UInt8}
    (hdata : data.length ≤ vecLength (q.getFreeMemoryBlock size).1) :
    (q.fill size data).1 = data.length ∧ QueueStores (q.fill size data).2 (s ++ data) ∧
      (q.fill size data).2.canReadLength = q.canReadLength + UInt32.ofNat data.length := by
  obtain ⟨hstores, hcount, -, -, front, mid, post, hshape, hmid, hvec⟩ :=
    h.getFreeMemoryBlock size
  have hpool : PoolBlocks (q.getFreeMemoryBlock size).2.blockLength mid := fun b hb =>
    hshape.pool b (List.mem_append_right _ (List.mem_append_left _ hb))
  rw [hvec, vecLength_freePieces hpool] at hdata
  obtain ⟨w, back, hfilled, hstored, htake, hle⟩ := hshape.readv hmid hdata
  rw [← hvec] at hfilled
  obtain ⟨hn, hstored', hshape', hsize, hcount', -⟩ := moveWritePt_spec hfilled
    (hdata.trans hle)
  rw [hfilled.list_eq, hstored, hstores.stored, htake] at hstored'
  refine ⟨hn, ⟨?_, ?_, hstored'⟩, ?_⟩
  · exact hsize.symm ▸ hstores.pos
  · exact hsize.symm ▸ hshape'
  · rw [← hcount]
    exact hcount'

/-- `MoveWritePt` backwards drops the newest bytes. -/
theorem moveWritePt_back (h : QueueStores q s) {len : ℕ} (hlen : 0 < len) :
    QueueStores (q.moveWritePt (-len)).2 (s.take (s.length - len)) := by
  obtain ⟨front, back, hshape, hnil⟩ := h.shape.writeShape h.pos
  unfold BufferQueue.moveWritePt
  rw [if_neg (by omega)]
  cases back with
  | nil =>
    obtain rfl := hnil rfl
    have hlist : q.bufferList = [] := hshape.list_eq
    have hs : s = [] := by rw [← h.stored, hlist, storedList_nil]
    subst hs
    simp only [hlist, List.length_nil, BufferQueue.moveWritePtBackLoop, List.take_nil]
    exact ⟨h.pos, Or.inl ⟨rfl, by simpa using hshape.write_eq⟩, rfl⟩
  | cons w back =>
    obtain ⟨-, hstored, hshape', hsize, -⟩ := moveWritePtBackLoop_spec hshape len
      (show front.length < q.bufferList.length by
        rw [hshape.list_eq, List.length_append, List.length_cons]
        omega)
    rw [h.stored] at hstored
    exact ⟨hsize.symm ▸ h.pos, hsize.symm ▸ hshape', hstored⟩

/-! ### Room to read into -/

/-- A vector has room when bytes are asked for, or `_buffer_write` or a block behind it has. -/
theorem vecLength_pos (h : QueueStores q s) {size : ℕ}
    (hroom : 0 < size ∨ Roomy q.bufferList q.bufferWrite) :
    0 < vecLength (q.getFreeMemoryBlock size).1 :=
  let ⟨_, _, hle, hpos, _⟩ := h.getFreeMemoryBlock size
  hroom.elim (fun hsize => lt_of_lt_of_le hsize hle) hpos

theorem getFreeMemoryBlock_roomy (h : QueueStores q s) {size : ℕ}
    (hpos : 0 < vecLength (q.getFreeMemoryBlock size).1) :
    Roomy (q.getFreeMemoryBlock size).2.bufferList (q.getFreeMemoryBlock size).2.bufferWrite := by
  obtain ⟨-, -, -, -, front, mid, post, hshape, -, hvec⟩ := h.getFreeMemoryBlock size
  refine hshape.roomy fun _ => ?_
  rw [hvec, vecLength_freePieces (fun b hb =>
    hshape.pool b (List.mem_append_right _ (List.mem_append_left _ hb)))] at hpos
  obtain ⟨b, hb, hroom⟩ := freeList_ne_nil.mp (List.length_pos_iff.mp hpos)
  exact ⟨b, List.mem_append_left _ hb, hroom⟩

theorem fill_roomy (h : QueueStores q s) {size : ℕ} {data : List UInt8}
    (hless : data.length < vecLength (q.getFreeMemoryBlock size).1) :
    Roomy (q.fill size data).2.bufferList (q.fill size data).2.bufferWrite := by
  obtain ⟨-, -, -, -, front, mid, post, hshape, hmid, hvec⟩ := h.getFreeMemoryBlock size
  rw [hvec, vecLength_freePieces (fun b hb =>
    hshape.pool b (List.mem_append_right _ (List.mem_append_left _ hb)))] at hless
  obtain ⟨w, back, hfilled, -, -, hle⟩ := hshape.readv hmid hless.le
  rw [← hvec] at hfilled
  obtain ⟨-, -, -, -, -, hroom⟩ := moveWritePt_spec hfilled (hless.le.trans hle)
  exact hroom (lt_of_lt_of_le hless hle)

theorem read_roomy (h : QueueStores q s) (len : ℕ) (hroom : Roomy q.bufferList q.bufferWrite) :
    Roomy (q.read len).2.bufferList (q.read len).2.bufferWrite := by
  unfold BufferQueue.read
  split_ifs
  · exact hroom
  · exact (readLoop_spec h.shape len).2.2.2 hroom

theorem moveWritePt_back_roomy (h : QueueStores q s) {len : ℕ} (hlen : 0 < len) :
    Roomy (q.moveWritePt (-len)).2.bufferList (q.moveWritePt (-len)).2.bufferWrite := by
  obtain ⟨front, back, hshape, hnil⟩ := h.shape.writeShape h.pos
  unfold BufferQueue.moveWritePt
  rw [if_neg (by omega)]
  cases back with
  | nil =>
    obtain rfl := hnil rfl
    have hlist : q.bufferList = [] := hshape.list_eq
    have hwrite : q.bufferWrite = none := hshape.write_eq
    simp only [hlist, List.length_nil, BufferQueue.moveWritePtBackLoop, hwrite]
    intro t ht
    cases ht
  | cons w back =>
    exact (moveWritePtBackLoop_spec hshape len (show front.length < q.bufferList.length by
      rw [hshape.list_eq, List.length_append, List.length_cons]
      omega)).2.2.2.2.2 hlen

/-- The vector of `GetUseMemoryBlock` holds the oldest bytes: all that are stored, or at least as
many as are asked for. -/
theorem getUseMemoryBlock (h : QueueStores q s) (maxSize : ℕ) :
    gather q.bufferList (q.getUseMemoryBlock maxSize) <+: s ∧
      (gather q.bufferList (q.getUseMemoryBlock maxSize) = s ∨
        0 < maxSize ∧ maxSize ≤ (gather q.bufferList (q.getUseMemoryBlock maxSize)).length) := by
  have hall := getUseMemoryBlockLoop_spec maxSize [] h.shape 0
  rw [h.stored] at hall
  simp only [List.nil_append, List.length_nil, Nat.zero_add] at hall
  exact hall

end QueueStores

namespace QueueHolds

variable {q q' : BufferQueue} {s : List UInt8}

theorem new {N : ℕ} (hN : 0 < N) (blockAlloter : ℕ → ℤ → UInt8) :
    QueueHolds (BufferQueue.new N blockAlloter) [] := ⟨.new hN blockAlloter, rfl⟩

theorem clear (h : QueueHolds q s) : QueueHolds q.clear [] := ⟨h.toQueueStores.clear, rfl⟩

/-- An operation that takes off the oldest bytes and counts them. -/
theorem drop (h : QueueHolds q s) {len : ℕ} (hstores : QueueStores q' (s.drop len))
    (hcount : q'.canReadLength = q.canReadLength - UInt32.ofNat (s.take len).length) :
    QueueHolds q' (s.drop len) := by
  refine ⟨hstores, ?_⟩
  have hlen := congrArg List.length (List.take_append_drop len s)
  rw [List.length_append] at hlen
  rw [hcount, h.count, ← hlen, UInt32.ofNat_add, UInt32.sub_eq_iff_eq_add, UInt32.add_comm]

/-- An operation that stores bytes and counts them. -/
theorem append (h : QueueHolds q s) {data : List UInt8} (hstores : QueueStores q' (s ++ data))
    (hcount : q'.canReadLength = q.canReadLength + UInt32.ofNat data.length) :
    QueueHolds q' (s ++ data) :=
  ⟨hstores, by rw [hcount, h.count, List.length_append, UInt32.ofNat_add]⟩

theorem read (h : QueueHolds q s) (len : ℕ) :
    (q.read len).1 = s.take len ∧ QueueHolds (q.read len).2 (s.drop len) := by
  obtain ⟨hbytes, hstores, hcount⟩ := h.toQueueStores.read len
  exact ⟨hbytes, h.drop hstores hcount⟩

theorem moveReadPt (h : QueueHolds q s) (len : ℕ) :
    (q.moveReadPt len).1 = (min len s.length : ℕ) ∧
      QueueHolds (q.moveReadPt len).2 (s.drop len) := by
  obtain ⟨hn, hstores, hcount⟩ := h.toQueueStores.moveReadPt len
  exact ⟨hn, h.drop hstores hcount⟩

theorem write (h : QueueHolds q s) (str : List UInt8) :
    (q.write str).1 = str.length ∧ QueueHolds (q.write str).2 (s ++ str) := by
  obtain ⟨hn, hstores, hcount⟩ := h.toQueueStores.write str
  exact ⟨hn, h.append hstores hcount⟩

theorem fill (h : QueueHolds q s) (size : ℕ) {data : List UInt8}
    (hdata : data.length ≤ vecLength (q.getFreeMemoryBlock size).1) :
    (q.fill size data).1 = data.length ∧ QueueHolds (q.fill size data).2 (s ++ data) := by
  obtain ⟨hn, hstores, hcount⟩ := h.toQueueStores.fill size hdata
  exact ⟨hn, h.append hstores hcount⟩

/-- A count of zero means that nothing is stored, when the count has not wrapped. -/
theorem eq_nil (h : QueueHolds q s) (hlen : s.length < 2 ^ 32)
    (hcount : ¬ q.canReadLength.toNat > 0) : s = [] := by
  rw [h.count, UInt32.toNat_ofNat'] at hcount
  exact List.eq_nil_of_length_eq_zero (by omega)

end QueueHolds

/-! ## Runs -/

/-- The operations of a client, and `fill`. -/
inductive QueueOp
  | write (str : List UInt8)
  | read (len : ℕ)
  | readNotMovePt (len : ℕ)
  | readUntil (len : ℕ)
  | moveReadPt (len : ℕ)
  | fill (size : ℕ) (data : List UInt8)
  | clear
  deriving DecidableEq

/-- The lengths that an operation is called with. -/
def QueueOp.lengths : QueueOp → List ℕ
  | .write str => [str.length]
  | .read len | .readNotMovePt len | .readUntil len | .moveReadPt len => [len]
  | .fill size data => [size, data.length]
  | .clear => []

/-- What a client sees of an operation: its result, and `GetCanReadLength()` after it. -/
structure QueueView where
  result : BlockResult
  canRead : UInt32
  deriving DecidableEq

/-- One operation on the queue. -/
def BufferQueue.exec (q : BufferQueue) : QueueOp → BlockResult × BufferQueue
  | .write str => (.count (q.write str).1, (q.write str).2)
  | .read len => (.got (q.read len).1, (q.read len).2)
  | .readNotMovePt len => (.got (q.readNotMovePt len), q)
  | .readUntil len => (.got (q.readUntil len).1, (q.readUntil len).2)
  | .moveReadPt len => (.count (q.moveReadPt len).1, (q.moveReadPt len).2)
  | .fill size data => (.count (q.fill size data).1, (q.fill size data).2)
  | .clear => (.done, q.clear)

/-- The queue as a client sees it. -/
def BufferQueue.step : Machine BufferQueue QueueOp QueueView := fun q op =>
  (⟨(q.exec op).1, (q.exec op).2.canReadLength⟩, (q.exec op).2)

/-- A `readv` puts out no more than its vector has room for. -/
def FillsVector (q : BufferQueue) : QueueOp → Prop
  | .fill size data => data.length ≤ vecLength (q.getFreeMemoryBlock size).1
  | _ => True

instance (q : BufferQueue) : ∀ op, Decidable (FillsVector q op)
  | .fill size data =>
    inferInstanceAs (Decidable (data.length ≤ vecLength (q.getFreeMemoryBlock size).1))
  | .write _ | .read _ | .readNotMovePt _ | .readUntil _ | .moveReadPt _ | .clear =>
    inferInstanceAs (Decidable True)

namespace QueueFifo

/-- One operation on a byte queue without bound. The length that `ReadUntil` compares with is a
32-bit word. -/
def exec (s : List UInt8) : QueueOp → BlockResult × List UInt8
  | .write str => (.count str.length, s ++ str)
  | .read len => (.got (s.take len), s.drop len)
  | .readNotMovePt len => (.got (s.take len), s)
  | .readUntil len =>
    if (UInt32.ofNat s.length).toNat < len then (.got [], s) else (.got (s.take len), s.drop len)
  | .moveReadPt len => (.count (min len s.length : ℕ), s.drop len)
  | .fill _ data => (.count data.length, s ++ data)
  | .clear => (.done, [])

/-- The byte queue as a client sees it. -/
def step : Machine (List UInt8) QueueOp QueueView := fun s op =>
  (⟨(exec s op).1, UInt32.ofNat (exec s op).2.length⟩, (exec s op).2)

end QueueFifo

/-- The sizes and lengths are those of an `int32_t`. -/
structure QueueRange (N : ℕ) (ops : List QueueOp) : Prop where
  pos : 0 < N
  size : N < 2 ^ 31
  lengths : ∀ op ∈ ops, ∀ n ∈ op.lengths, n < 2 ^ 31

variable {q : BufferQueue} {s : List UInt8}

/-- Every operation keeps the queue of blocks and the byte queue together. -/
theorem QueueHolds.exec (h : QueueHolds q s) {op : QueueOp} (hfill : FillsVector q op) :
    (q.exec op).1 = (QueueFifo.exec s op).1 ∧
      QueueHolds (q.exec op).2 (QueueFifo.exec s op).2 := by
  cases op with
  | write str =>
    obtain ⟨hn, hnext⟩ := h.write str
    exact ⟨congrArg (fun n : ℕ => BlockResult.count n) hn, hnext⟩
  | read len =>
    obtain ⟨hbytes, hnext⟩ := h.read len
    exact ⟨congrArg BlockResult.got hbytes, hnext⟩
  | readNotMovePt len => exact ⟨congrArg BlockResult.got (h.readNotMovePt len), h⟩
  | readUntil len =>
    obtain ⟨hbytes, hnext⟩ := h.read len
    simp only [BufferQueue.exec, QueueFifo.exec, BufferQueue.readUntil, h.count]
    split_ifs
    · exact ⟨rfl, h⟩
    · exact ⟨congrArg BlockResult.got hbytes, hnext⟩
  | moveReadPt len =>
    obtain ⟨hn, hnext⟩ := h.moveReadPt len
    exact ⟨congrArg BlockResult.count hn, hnext⟩
  | fill size data =>
    obtain ⟨hn, hnext⟩ := h.fill size hfill
    exact ⟨congrArg BlockResult.count hn, hnext⟩
  | clear => exact ⟨rfl, h.clear⟩

/-- **The buffer queue is a byte queue without bound.** Whatever the blocks of the pool hold, a
fresh queue shows along every sequence of operations what the byte queue shows, when the length of a
block and those of the operations are in range and no `readv` puts out more than its vector has room
for. -/
theorem outputs_eq_queueFifo {N : ℕ} {ops : List QueueOp} (hrange : QueueRange N ops)
    (blockAlloter : ℕ → ℤ → UInt8)
    (hfill : Machine.Along BufferQueue.step FillsVector (BufferQueue.new N blockAlloter) ops) :
    Machine.outputs BufferQueue.step (BufferQueue.new N blockAlloter) ops =
      Machine.outputs QueueFifo.step [] ops := by
  have hstep : ∀ q s op, QueueHolds q s → FillsVector q op →
      (BufferQueue.step q op).1 = (QueueFifo.step s op).1 ∧
        QueueHolds (BufferQueue.step q op).2 (QueueFifo.step s op).2 := by
    intro q s op hqs hop
    obtain ⟨hout, h'⟩ := hqs.exec hop
    refine ⟨?_, h'⟩
    simp only [BufferQueue.step, QueueFifo.step, hout, h'.count]
  have hrun := Machine.simulation (Q := Eq) hstep (QueueHolds.new hrange.pos blockAlloter) hfill
  exact List.forall₂_eq_eq_eq ▸ hrun.1

/-- Blocks of four bytes: two of them are filled, and a `readv` goes round the end of the second. -/
theorem outputs_eq_queueFifo_four :
    Machine.outputs BufferQueue.step (BufferQueue.new 4 fun _ _ => 0)
        [.write [1, 2, 3, 4, 5, 6], .read 5, .fill 4 [7, 8, 9, 10, 11], .read 7] =
      Machine.outputs QueueFifo.step []
        [.write [1, 2, 3, 4, 5, 6], .read 5, .fill 4 [7, 8, 9, 10, 11], .read 7] :=
  outputs_eq_queueFifo ⟨by decide, by decide, by decide⟩ _ (by decide +kernel)

end CodeTest.CppNet
