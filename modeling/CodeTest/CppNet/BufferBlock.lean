import CodeTest.Foundations.Circular

/-!
# The buffer block

`BufferBlock` of `buffer_block.cpp`: a block of the memory pool with a read and a write point.
Points are offsets from `_buffer_start`, and both may stand at `_buffer_end`. When the points are
equal the flag `_can_read` says whether the block is full or empty.

The pool never gives out a null block, so the `!_buffer_start` branches of the source are left out,
and so are the null checks of the byte pointers. A data pointer with its length is a list, and bytes
put into a result buffer are the list of them. Sizes and lengths are numbers without bound.
`MoveReadPt` and `MoveWritePt` count in `int32_t`, to which they cast the sizes: the definitions are
the code for blocks and lengths below `2 ^ 31`. The pool of the library has blocks of 1024 bytes.
-/

namespace CodeTest.CppNet

open Circular

/-- The fields of `BufferBlock`, and the memory around its block. -/
structure BufferBlock where
  mem : ℤ → UInt8
  totalSize : ℕ
  readPt : ℤ
  writePt : ℤ
  canRead : Bool

/-- A piece of memory given out by `GetFreeMemoryBlock` and `GetUseMemoryBlock`: its start and its
length. -/
structure Iovec where
  base : ℤ
  len : ℕ
  deriving DecidableEq

namespace BufferBlock

/-- `_buffer_start`: offsets are counted from it. -/
def bufferStart : ℤ := 0

/-- `_buffer_end`, behind the last byte of the block. -/
def bufferEnd (b : BufferBlock) : ℤ := bufferStart + b.totalSize

/-- The constructor: `junk` is what the memory held, `blockLength` is `GetBlockLength()`. -/
def new (junk : ℤ → UInt8) (blockLength : ℕ) : BufferBlock :=
  { mem := junk, totalSize := blockLength, readPt := bufferStart, writePt := bufferStart,
    canRead := false }

def clear (b : BufferBlock) : BufferBlock :=
  { b with readPt := bufferStart, writePt := bufferStart, canRead := false }

/-- `_Read(res, len, move_pt)`. -/
def readMem (b : BufferBlock) (len : ℕ) (movePt : Bool) : List UInt8 × BufferBlock :=
  if b.readPt < b.writePt then
    let size := (b.writePt - b.readPt).toNat
    if size ≤ len then
      (slice b.mem b.readPt size, if movePt then b.clear else b)
    else
      (slice b.mem b.readPt len, if movePt then { b with readPt := b.readPt + len } else b)
  else if b.canRead = false ∧ b.readPt = b.writePt then
    ([], b)
  else
    let sizeStart := (b.writePt - bufferStart).toNat
    let sizeEnd := (b.bufferEnd - b.readPt).toNat
    let size := sizeStart + sizeEnd
    if size ≤ len then
      (slice b.mem b.readPt sizeEnd ++ slice b.mem bufferStart sizeStart,
        if movePt then b.clear else b)
    else if len ≤ sizeEnd then
      (slice b.mem b.readPt len, if movePt then { b with readPt := b.readPt + len } else b)
    else
      let left := len - sizeEnd
      (slice b.mem b.readPt sizeEnd ++ slice b.mem bufferStart left,
        if movePt then { b with readPt := bufferStart + left } else b)

def readNotMovePt (b : BufferBlock) (len : ℕ) : List UInt8 := (b.readMem len false).1

/-- `Read(res, len)`. -/
def read (b : BufferBlock) (len : ℕ) : List UInt8 × BufferBlock := b.readMem len true

/-- `Write(data, len)`, the `_Write` of the source, with `len` the length of `data`. -/
def write (b : BufferBlock) (data : List UInt8) : ℕ × BufferBlock :=
  let len := data.length
  if b.writePt < b.readPt then
    let size := (b.readPt - b.writePt).toNat
    if len ≤ size then
      let b' := { b with mem := blit b.mem b.writePt data, writePt := b.writePt + len }
      (len, if b'.writePt = b'.readPt then { b' with canRead := true } else b')
    else
      (size, { b with mem := blit b.mem b.writePt (data.take size), writePt := b.writePt + size,
                      canRead := true })
  else if b.canRead = true ∧ b.readPt = b.writePt then
    (0, b)
  else
    let sizeStart := (b.readPt - bufferStart).toNat
    let sizeEnd := (b.bufferEnd - b.writePt).toNat
    let size := sizeStart + sizeEnd
    if size ≤ len then
      let mem₁ := blit b.mem b.writePt (data.take sizeEnd)
      let mem₂ := blit mem₁ bufferStart ((data.drop sizeEnd).take sizeStart)
      (size, { b with mem := mem₂, writePt := b.readPt, canRead := true })
    else if len ≤ sizeEnd then
      (len, { b with mem := blit b.mem b.writePt data, writePt := b.writePt + len })
    else
      let left := len - sizeEnd
      let mem₁ := blit b.mem b.writePt (data.take sizeEnd)
      let mem₂ := blit mem₁ bufferStart ((data.drop sizeEnd).take left)
      (len, { b with mem := mem₂, writePt := bufferStart + left })

def moveReadPt (b : BufferBlock) (len : ℤ) : ℤ × BufferBlock :=
  if len > 0 then
    if b.readPt < b.writePt then
      let size := b.writePt - b.readPt
      if size ≤ len then (size, b.clear) else (len, { b with readPt := b.readPt + len })
    else if b.canRead = false ∧ b.readPt = b.writePt then
      (0, b)
    else
      let sizeStart := b.writePt - bufferStart
      let sizeEnd := b.bufferEnd - b.readPt
      let size := sizeStart + sizeEnd
      if size ≤ len then (size, b.clear)
      else if len ≤ sizeEnd then (len, { b with readPt := b.readPt + len })
      else (len, { b with readPt := bufferStart + (len - sizeEnd) })
  else
    let len := -len
    if b.writePt < b.readPt then
      let size := b.readPt - b.writePt
      if size ≤ len then (size, { b with readPt := b.writePt, canRead := true })
      else (len, { b with readPt := b.readPt - len })
    else if b.canRead = true ∧ b.readPt = b.writePt then
      (0, b)
    else
      let sizeStart := b.readPt - bufferStart
      let sizeEnd := b.bufferEnd - b.writePt
      let size := sizeStart + sizeEnd
      if size ≤ len then (size, { b with readPt := b.writePt, canRead := true })
      else if len ≤ sizeStart then (len, { b with readPt := b.readPt - len })
      else (len, { b with readPt := b.bufferEnd - (len - sizeStart) })

def moveWritePt (b : BufferBlock) (len : ℤ) : ℤ × BufferBlock :=
  if len > 0 then
    if b.writePt < b.readPt then
      let size := b.readPt - b.writePt
      if size ≤ len then (size, { b with writePt := b.readPt, canRead := true })
      else (len, { b with writePt := b.writePt + len })
    else if b.canRead = true ∧ b.readPt = b.writePt then
      (0, b)
    else
      let sizeStart := b.readPt - bufferStart
      let sizeEnd := b.bufferEnd - b.writePt
      let size := sizeStart + sizeEnd
      if size ≤ len then (size, { b with writePt := b.readPt, canRead := true })
      else if len ≤ sizeEnd then (len, { b with writePt := b.writePt + len })
      else (len, { b with writePt := bufferStart + (len - sizeEnd) })
  else
    let len := -len
    if b.readPt < b.writePt then
      let size := b.writePt - b.readPt
      if size ≤ len then (size, b.clear) else (len, { b with writePt := b.writePt - len })
    else if b.canRead = false ∧ b.readPt = b.writePt then
      (0, b)
    else
      let sizeStart := b.writePt - bufferStart
      let sizeEnd := b.bufferEnd - b.readPt
      let size := sizeStart + sizeEnd
      if size ≤ len then (size, b.clear)
      else if len ≤ sizeStart then (len, { b with writePt := b.writePt - len })
      else (len, { b with writePt := b.bufferEnd - (len - sizeStart) })

def getCanWriteLength (b : BufferBlock) : ℕ :=
  if b.writePt > b.readPt then
    ((b.bufferEnd - b.writePt) + (b.readPt - bufferStart)).toNat
  else if b.writePt < b.readPt then
    (b.readPt - b.writePt).toNat
  else if b.canRead then 0 else b.totalSize

def getCanReadLength (b : BufferBlock) : ℕ :=
  if b.writePt > b.readPt then
    (b.writePt - b.readPt).toNat
  else if b.writePt < b.readPt then
    ((b.bufferEnd - b.readPt) + (b.writePt - bufferStart)).toNat
  else if b.canRead then b.totalSize else 0

/-- `ReadUntil(res, len)`: nothing when less than `len` is stored. -/
def readUntil (b : BufferBlock) (len : ℕ) : List UInt8 × BufferBlock :=
  if b.getCanReadLength < len then ([], b) else b.read len

/-- The two pieces that `GetFreeMemoryBlock` puts out. A null piece has length 0. -/
def getFreeMemoryBlock (b : BufferBlock) : Iovec × Iovec :=
  if b.writePt ≥ b.readPt then
    if b.canRead = true ∧ b.writePt = b.readPt then
      (⟨0, 0⟩, ⟨0, 0⟩)
    else
      (⟨b.writePt, (b.bufferEnd - b.writePt).toNat⟩,
        ⟨bufferStart, (b.readPt - bufferStart).toNat⟩)
  else
    (⟨b.writePt, (b.readPt - b.writePt).toNat⟩, ⟨0, 0⟩)

/-- The two pieces that `GetUseMemoryBlock` puts out. A null piece has length 0. -/
def getUseMemoryBlock (b : BufferBlock) : Iovec × Iovec :=
  if b.readPt ≥ b.writePt then
    if b.canRead = false ∧ b.writePt = b.readPt then
      (⟨0, 0⟩, ⟨0, 0⟩)
    else
      (⟨b.readPt, (b.bufferEnd - b.readPt).toNat⟩,
        ⟨bufferStart, (b.writePt - bufferStart).toNat⟩)
  else
    (⟨b.readPt, (b.writePt - b.readPt).toNat⟩, ⟨0, 0⟩)

end BufferBlock

end CodeTest.CppNet
