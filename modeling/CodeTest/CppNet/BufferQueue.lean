import CodeTest.CppNet.BufferBlock

/-!
# The buffer queue

`BufferQueue` of `buffer_queue.cpp`: a list of buffer blocks that grows at its end as bytes are
written and shrinks at its head as they are read. `_buffer_write` is the block that is written next,
given by its position in the list; blocks behind it are empty.

Left out are the operations between two queues, `FindStr` and the `ReadUntil` that uses it, and
`MoveReadPt` with a negative length, which no caller in the library uses and which dereferences a
null pointer on an empty queue. `_can_read_length` is a 32-bit word. The other lengths are numbers
without bound, and the definitions are the code for blocks and operations of fewer than `2 ^ 31`
bytes; the loop of `GetFreeMemoryBlock` for such a size ends before its `cur_len` wraps.
-/

namespace CodeTest.CppNet

open Circular

/-- The fields of `BufferQueue`. The pool gives out blocks of `blockLength` bytes; `blockAlloter i`
is what the `i`-th of the blocks to come holds. -/
structure BufferQueue where
  canReadLength : UInt32
  bufferList : List BufferBlock
  bufferWrite : Option ℕ
  blockLength : ℕ
  blockAlloter : ℕ → ℤ → UInt8

/-- A piece of memory of the block at a position of the list. -/
abbrev Piece := ℕ × Iovec

/-- The pieces of one block that are put in a vector: those that are not null. -/
def piecesOf (t : ℕ) (v : Iovec × Iovec) : List Piece :=
  [(t, v.1), (t, v.2)].filter fun p => 0 < p.2.len

namespace BufferQueue

def new (blockLength : ℕ) (blockAlloter : ℕ → ℤ → UInt8) : BufferQueue :=
  { canReadLength := 0, bufferList := [], bufferWrite := none, blockLength, blockAlloter }

def reset (q : BufferQueue) : BufferQueue := { q with bufferList := [], bufferWrite := none }

def append (q : BufferQueue) : BufferQueue :=
  let temp := BufferBlock.new (q.blockAlloter 0) q.blockLength
  { q with
    bufferWrite := if q.bufferWrite = none then some q.bufferList.length else q.bufferWrite
    bufferList := q.bufferList ++ [temp]
    blockAlloter := fun i => q.blockAlloter (i + 1) }

/-- The block behind the one at position `t`, if there is one. -/
def getNext (q : BufferQueue) (t : ℕ) : Option ℕ :=
  if t + 1 < q.bufferList.length then some (t + 1) else none

def clear (q : BufferQueue) : BufferQueue := { q with canReadLength := 0 }.reset

/-! ## Reading -/

/-- The loop of `ReadNotMovePt`: over the blocks from `temp` on, with the position of
`_buffer_write` counted from there. -/
def readNotMovePtLoop : List BufferBlock → Option ℕ → ℕ → List UInt8
  | [], _, _ => []
  | temp :: rest, write, len =>
    if len = 0 then []
    else
      let bytes := temp.readNotMovePt len
      if write = some 0 then bytes
      else bytes ++ readNotMovePtLoop rest (write.map (· - 1)) (len - bytes.length)

def readNotMovePt (q : BufferQueue) (len : ℕ) : List UInt8 :=
  readNotMovePtLoop q.bufferList q.bufferWrite len

/-- The loop of `Read`. A block that is drained is popped, and `_buffer_write` moves on when it is
that block; when no block is left the list is reset. -/
def readLoop : List BufferBlock → Option ℕ → ℕ → List UInt8 × List BufferBlock × Option ℕ
  | [], write, _ => ([], [], write)
  | head :: rest, write, len =>
    let (bytes, head') := head.read len
    if len ≤ bytes.length then (bytes, head' :: rest, write)
    else
      match rest with
      | [] => (bytes, [], none)
      | next :: _ =>
        if next.getCanReadLength = 0 then (bytes, rest, write.map (· - 1))
        else
          let (bytes', list, write') := readLoop rest (write.map (· - 1)) (len - bytes.length)
          (bytes ++ bytes', list, write')

/-- `Read(res, len)`. -/
def read (q : BufferQueue) (len : ℕ) : List UInt8 × BufferQueue :=
  if q.bufferList.length = 0 ∨ len = 0 then ([], q)
  else
    let (bytes, list, write) := readLoop q.bufferList q.bufferWrite len
    (bytes, { q with
      bufferList := list
      bufferWrite := write
      canReadLength := q.canReadLength - UInt32.ofNat bytes.length })

/-- `ReadUntil(res, len)`: nothing when less than `len` is stored. -/
def readUntil (q : BufferQueue) (len : ℕ) : List UInt8 × BufferQueue :=
  if q.canReadLength.toNat < len then ([], q) else q.read len

/-- The loop of `MoveReadPt` for a length that is not negative. -/
def moveReadPtLoop : List BufferBlock → Option ℕ → ℤ → ℤ × List BufferBlock × Option ℕ
  | [], write, _ => (0, [], write)
  | head :: rest, write, len =>
    let (n, head') := head.moveReadPt len
    if n ≥ len then (n, head' :: rest, write)
    else
      match rest with
      | [] => (n, [], none)
      | _ :: _ =>
        let (n', list, write') := moveReadPtLoop rest (write.map (· - 1)) (len - n)
        (n + n', list, write')

def moveReadPt (q : BufferQueue) (len : ℕ) : ℤ × BufferQueue :=
  let (n, list, write) := moveReadPtLoop q.bufferList q.bufferWrite len
  (n, { q with
    bufferList := list
    bufferWrite := write
    canReadLength := q.canReadLength - UInt32.ofNat n.toNat })

/-- The loop of `GetUseMemoryBlock`: over the blocks from position `t` on. -/
def getUseMemoryBlockLoop (maxSize : ℕ) :
    List BufferBlock → Option ℕ → ℕ → ℕ → List Piece
  | [], _, _, _ => []
  | temp :: rest, write, t, curLen =>
    let v := temp.getUseMemoryBlock
    let curLen := curLen + v.1.len + v.2.len
    if write = some 0 then piecesOf t v
    else if maxSize > 0 ∧ curLen ≥ maxSize then piecesOf t v
    else piecesOf t v ++ getUseMemoryBlockLoop maxSize rest (write.map (· - 1)) (t + 1) curLen

/-- The vector that `GetUseMemoryBlock` puts out. -/
def getUseMemoryBlock (q : BufferQueue) (maxSize : ℕ) : List Piece :=
  getUseMemoryBlockLoop maxSize q.bufferList q.bufferWrite 0 0

/-! ## Writing -/

/-- `_buffer_write`, with its position. -/
def writeBlock (q : BufferQueue) : Option (ℕ × BufferBlock) :=
  q.bufferWrite.bind fun t => q.bufferList[t]?.map fun b => (t, b)

/-- The loop of `Write`, for at most `fuel` blocks. -/
def writeLoop : ℕ → BufferQueue → List UInt8 → ℕ × BufferQueue
  | 0, q, _ => (0, q)
  | fuel + 1, q, data =>
    let q := if q.bufferWrite = none then q.append else q
    match q.writeBlock with
    | none => (0, q)
    | some (t, b) =>
      let (n, b') := b.write data
      let q := { q with bufferList := q.bufferList.set t b' }
      if n ≥ data.length then (n, q)
      else
        let (n', q') := writeLoop fuel { q with bufferWrite := q.getNext t } (data.drop n)
        (n + n', q')

/-- `Write(str, len)` with `len` the length of `str`. Every block but the first takes at least one
byte, which bounds the loop. -/
def write (q : BufferQueue) (str : List UInt8) : ℕ × BufferQueue :=
  if str.length = 0 then (0, q)
  else
    let (n, q) := writeLoop (str.length + 1) q str
    (n, { q with canReadLength := q.canReadLength + UInt32.ofNat n })

/-- The loop of `MoveWritePt` for a length that is not negative, for at most `fuel` blocks. -/
def moveWritePtLoop : ℕ → BufferQueue → ℤ → ℤ × BufferQueue
  | 0, q, _ => (0, q)
  | fuel + 1, q, len =>
    match q.writeBlock with
    | none => (0, q)
    | some (t, b) =>
      let (n, b') := b.moveWritePt len
      let q := { q with bufferList := q.bufferList.set t b' }
      if t + 1 = q.bufferList.length ∨ len ≤ n then (n, q)
      else
        let (n', q') := moveWritePtLoop fuel { q with bufferWrite := q.getNext t } (len - n)
        (n + n', q')

/-- The loop of `MoveWritePt` for a negative length, for at most `fuel` blocks. -/
def moveWritePtBackLoop : ℕ → BufferQueue → ℤ → ℤ × BufferQueue
  | 0, q, _ => (0, q)
  | fuel + 1, q, len =>
    match q.writeBlock with
    | none => (0, q)
    | some (t, b) =>
      let (n, b') := b.moveWritePt len
      let q := { q with bufferList := q.bufferList.set t b' }
      if t = 0 ∨ -len ≤ n then (n, q)
      else
        let (n', q') := moveWritePtBackLoop fuel { q with bufferWrite := some (t - 1) } (len + n)
        (n + n', q')

/-- `MoveWritePt(len)`. The count of moved bytes is added to `_can_read_length` also when the point
is moved back. -/
def moveWritePt (q : BufferQueue) (len : ℤ) : ℤ × BufferQueue :=
  let (n, q) :=
    if len ≥ 0 then moveWritePtLoop q.bufferList.length q len
    else moveWritePtBackLoop q.bufferList.length q len
  (n, { q with canReadLength := q.canReadLength + UInt32.ofNat n.toNat })

/-- The free length of the blocks from `_buffer_write` on. -/
def getCanWriteLength (q : BufferQueue) : ℕ :=
  match q.bufferWrite with
  | none => 0
  | some t => ((q.bufferList.drop t).map BufferBlock.getCanWriteLength).sum

/-- The loop of `GetFreeMemoryBlock` for a size, for at most `fuel` blocks; `size` is what is still
missing. -/
def getFreeMemoryBlockLoop : ℕ → BufferQueue → Option ℕ → ℕ → List Piece × BufferQueue
  | 0, q, _, _ => ([], q)
  | fuel + 1, q, temp, size =>
    if size = 0 then ([], q)
    else
      let t := temp.getD q.bufferList.length
      let q := if temp = none then q.append else q
      match q.bufferList[t]? with
      | none => ([], q)
      | some b =>
        let v := b.getFreeMemoryBlock
        let (vec, q') := getFreeMemoryBlockLoop fuel q (q.getNext t) (size - v.1.len - v.2.len)
        (piecesOf t v ++ vec, q')

/-- The free pieces of the blocks from position `t` on. -/
def freePieces : ℕ → List BufferBlock → List Piece
  | _, [] => []
  | t, b :: rest => piecesOf t b.getFreeMemoryBlock ++ freePieces (t + 1) rest

/-- The vector that `GetFreeMemoryBlock` puts out. -/
def getFreeMemoryBlock (q : BufferQueue) (size : ℕ) : List Piece × BufferQueue :=
  if size > 0 then getFreeMemoryBlockLoop (size + 1) q q.bufferWrite size
  else
    let t := q.bufferWrite.getD q.bufferList.length
    let q := if q.bufferWrite = none then q.append else q
    (freePieces t (q.bufferList.drop t), q)

end BufferQueue

/-! ## The system calls on a vector -/

/-- What `writev` takes from the pieces of a vector. -/
def gather (list : List BufferBlock) (vec : List Piece) : List UInt8 :=
  vec.flatMap fun p => match list[p.1]? with
    | none => []
    | some b => slice b.mem p.2.base p.2.len

/-- What `readv` does to the blocks: it fills the pieces one after the other. -/
def scatter : List BufferBlock → List Piece → List UInt8 → List BufferBlock
  | list, [], _ => list
  | list, p :: vec, data =>
    scatter (list.modify p.1 fun b => { b with mem := blit b.mem p.2.base (data.take p.2.len) })
      vec (data.drop p.2.len)

/-- A `readv` of `data` into a vector of the queue's free pieces. -/
def BufferQueue.readv (q : BufferQueue) (vec : List Piece) (data : List UInt8) : BufferQueue :=
  { q with bufferList := scatter q.bufferList vec data }

/-- The length of a vector in bytes, the result of `GetFreeMemoryBlock` and `GetUseMemoryBlock`. -/
def vecLength (vec : List Piece) : ℕ := (vec.map fun p => p.2.len).sum

end CodeTest.CppNet
