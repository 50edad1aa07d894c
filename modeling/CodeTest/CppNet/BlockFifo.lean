import CodeTest.CppNet.BlockStored
import CodeTest.Foundations.Machine

/-!
# The buffer block as a byte queue

The queue of capacity `N` that `BufferBlock` is meant to be is the machine `BlockFifo.step N` on
lists of bytes. `outputs_eq_blockFifo` says that a fresh block and the queue show the same along
every sequence of operations: the flag `_can_read` makes the block usable up to its last byte.
`BlockRange` keeps the sizes and lengths below `2 ^ 31`, where a `size_t` cast to `int32_t` is the
number it was.
-/

namespace CodeTest.CppNet

/-- The operations of a client. `unwrite` is `MoveWritePt` with a negative length. -/
inductive BlockOp
  | write (data : List UInt8)
  | read (len : ℕ)
  | readNotMovePt (len : ℕ)
  | readUntil (len : ℕ)
  | moveReadPt (len : ℕ)
  | unwrite (len : ℕ)
  | clear
  deriving DecidableEq

/-- The lengths that an operation is called with. -/
def BlockOp.lengths : BlockOp → List ℕ
  | .write data => [data.length]
  | .read len | .readNotMovePt len | .readUntil len | .moveReadPt len | .unwrite len => [len]
  | .clear => []

/-- What an operation hands back. -/
inductive BlockResult
  | count (n : ℤ)
  | got (bytes : List UInt8)
  | done
  deriving DecidableEq

/-- What a client sees of an operation: its result, and the two lengths after it. -/
structure BlockView where
  result : BlockResult
  canRead : ℕ
  canWrite : ℕ
  deriving DecidableEq

/-- One operation on the block. -/
def BufferBlock.exec (b : BufferBlock) : BlockOp → BlockResult × BufferBlock
  | .write data => (.count (b.write data).1, (b.write data).2)
  | .read len => (.got (b.read len).1, (b.read len).2)
  | .readNotMovePt len => (.got (b.readNotMovePt len), b)
  | .readUntil len => (.got (b.readUntil len).1, (b.readUntil len).2)
  | .moveReadPt len => (.count (b.moveReadPt len).1, (b.moveReadPt len).2)
  | .unwrite len => (.count (b.moveWritePt (-len)).1, (b.moveWritePt (-len)).2)
  | .clear => (.done, b.clear)

/-- The block as a client sees it. -/
def BufferBlock.step : Machine BufferBlock BlockOp BlockView := fun b op =>
  let b' := (b.exec op).2
  (⟨(b.exec op).1, b'.getCanReadLength, b'.getCanWriteLength⟩, b')

namespace BlockFifo

/-- One operation on a queue of capacity `N`. -/
def exec (N : ℕ) (q : List UInt8) : BlockOp → BlockResult × List UInt8
  | .write data => (.count (min data.length (N - q.length) : ℕ), q ++ data.take (N - q.length))
  | .read len => (.got (q.take len), q.drop len)
  | .readNotMovePt len => (.got (q.take len), q)
  | .readUntil len => if q.length < len then (.got [], q) else (.got (q.take len), q.drop len)
  | .moveReadPt len => (.count (min len q.length : ℕ), q.drop len)
  | .unwrite len => (.count (min len q.length : ℕ), q.take (q.length - len))
  | .clear => (.done, [])

/-- A queue of capacity `N` as a client sees it. -/
def step (N : ℕ) : Machine (List UInt8) BlockOp BlockView := fun q op =>
  let q' := (exec N q op).2
  (⟨(exec N q op).1, q'.length, N - q'.length⟩, q')

end BlockFifo

/-- The sizes and lengths are those of an `int32_t`, in which `MoveReadPt` and `MoveWritePt` count.
-/
structure BlockRange (N : ℕ) (ops : List BlockOp) : Prop where
  pos : 0 < N
  size : N < 2 ^ 31
  lengths : ∀ op ∈ ops, ∀ n ∈ op.lengths, n < 2 ^ 31

/-- The block stores what is in the queue, which is of its capacity. -/
def BlockRepresents (N : ℕ) (b : BufferBlock) (q : List UInt8) : Prop :=
  b.Valid ∧ b.totalSize = N ∧ b.stored = q

variable {N : ℕ} {b : BufferBlock} {q : List UInt8}

/-- Every operation keeps the block and the queue together. -/
theorem BlockRepresents.exec (h : BlockRepresents N b q) (op : BlockOp) :
    (b.exec op).1 = (BlockFifo.exec N q op).1 ∧
      BlockRepresents N (b.exec op).2 (BlockFifo.exec N q op).2 := by
  obtain ⟨h, rfl, rfl⟩ := h
  cases op with
  | write data =>
    obtain ⟨hn, hnext⟩ := h.write data
    exact ⟨congrArg (fun n : ℕ => BlockResult.count n) hn, hnext⟩
  | read len =>
    obtain ⟨hbytes, hnext⟩ := h.read len
    exact ⟨congrArg BlockResult.got hbytes, hnext⟩
  | readNotMovePt len => exact ⟨congrArg BlockResult.got (h.readNotMovePt len), h, rfl, rfl⟩
  | readUntil len =>
    obtain ⟨hbytes, hnext⟩ := h.read len
    simp only [BufferBlock.exec, BlockFifo.exec, BufferBlock.readUntil, b.length_stored]
    split_ifs
    · exact ⟨rfl, h, rfl, rfl⟩
    · exact ⟨congrArg BlockResult.got hbytes, hnext⟩
  | moveReadPt len =>
    obtain ⟨hn, hnext⟩ := h.moveReadPt_nat len
    exact ⟨congrArg BlockResult.count hn, hnext⟩
  | unwrite len =>
    obtain ⟨hn, hnext⟩ := h.moveWritePt_back len
    exact ⟨congrArg BlockResult.count hn, hnext⟩
  | clear => exact ⟨rfl, h.clear, rfl, b.stored_clear⟩

theorem BlockRepresents.step (h : BlockRepresents N b q) (op : BlockOp) :
    (b.step op).1 = (BlockFifo.step N q op).1 ∧
      BlockRepresents N (b.step op).2 (BlockFifo.step N q op).2 := by
  obtain ⟨hout, h'⟩ := h.exec op
  obtain ⟨hvalid, hsize, hstored⟩ := id h'
  have hw := hvalid.getCanWriteLength
  rw [← BufferBlock.length_stored, hsize, hstored] at hw
  refine ⟨?_, h'⟩
  simp only [BufferBlock.step, BlockFifo.step, hout, hw, ← BufferBlock.length_stored, hstored]

/-- **The buffer block is a byte queue of its whole length.** A fresh block of `N` bytes, whatever
its memory held, shows along every sequence of operations what a queue of capacity `N` shows, as
long as `N` and the lengths are in range. -/
theorem outputs_eq_blockFifo (junk : ℤ → UInt8) {N : ℕ} {ops : List BlockOp}
    (hrange : BlockRange N ops) :
    Machine.outputs BufferBlock.step (BufferBlock.new junk N) ops =
      Machine.outputs (BlockFifo.step N) [] ops := by
  have h : BlockRepresents N (BufferBlock.new junk N) [] := ⟨.new junk hrange.pos, rfl, by simp⟩
  have hrun := Machine.simulation (Q := Eq) (fun s t e hst _ => hst.step e) h
    (Machine.along_true _ ops)
  exact List.forall₂_eq_eq_eq ▸ hrun.1

/-- Four bytes: what is written second goes round the end, and half of it is taken back. -/
theorem outputs_eq_blockFifo_four :
    Machine.outputs BufferBlock.step (BufferBlock.new (fun _ => 0) 4)
        [.write [1, 2, 3], .read 2, .write [4, 5, 6], .unwrite 1, .readUntil 3] =
      Machine.outputs (BlockFifo.step 4) []
        [.write [1, 2, 3], .read 2, .write [4, 5, 6], .unwrite 1, .readUntil 3] :=
  outputs_eq_blockFifo _ ⟨by decide, by decide, by decide⟩

end CodeTest.CppNet
