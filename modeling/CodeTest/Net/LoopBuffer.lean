import CodeTest.Foundations.Circular

/-!
# The loop buffer

`CLoopBuffer` of `gdriven.cpp`, and the identical `CBuffer` of `auto_buffer.cpp`: a block from
`malloc`, used up to its usable size, with a read and a write pointer and no other record of what
is stored. Pointers are offsets from `_malloc_start_ptr`. The memory is the whole address space
around the block, so that an operation that leaves the block still has a meaning in the model.

`memmove` returns its destination, which is not null, so the `memmove failed` branches of the
source are never taken and are left out.
-/

namespace CodeTest.Net

open Circular

/-- The fields of `CLoopBuffer`, and the memory around its block. -/
structure CLoopBuffer where
  mem : ℤ → UInt8
  readPtr : ℤ
  writePtr : ℤ
  mallocRealSize : ℕ

namespace CLoopBuffer

/-- `_malloc_start_ptr`: offsets are counted from it. -/
def mallocStartPtr : ℤ := 0

/-- `_malloc_end_ptr`, the last byte of the block. -/
def mallocEndPtr (b : CLoopBuffer) : ℤ := mallocStartPtr + b.mallocRealSize - 1

/-- The constructor: `junk` is what the memory held, `usable` is `malloc_usable_size` of the
block. -/
def new (junk : ℤ → UInt8) (usable : ℕ) : CLoopBuffer :=
  { mem := junk, readPtr := mallocStartPtr, writePtr := mallocStartPtr, mallocRealSize := usable }

def reset (b : CLoopBuffer) : CLoopBuffer :=
  { b with readPtr := mallocStartPtr, writePtr := mallocStartPtr }

def getWriteableSize (b : CLoopBuffer) : ℤ :=
  if b.writePtr > b.readPtr ∨ b.writePtr = b.readPtr then
    (b.mallocEndPtr - b.writePtr + 1) + (b.readPtr - mallocStartPtr)
  else
    b.readPtr - b.writePtr

def getReadableSize (b : CLoopBuffer) : ℤ :=
  if b.readPtr < b.writePtr ∨ b.readPtr = b.writePtr then
    b.writePtr - b.readPtr
  else
    (b.mallocEndPtr - b.readPtr + 1) + (b.writePtr - mallocStartPtr)

/-- `Write(content, size)` with `size` the length of `content`. -/
def write (b : CLoopBuffer) (content : List UInt8) : Bool × CLoopBuffer :=
  let size := content.length
  if b.getWriteableSize < size then
    (false, b)
  else if b.writePtr + size > b.mallocEndPtr then
    let toEndSize := b.mallocEndPtr - b.writePtr + 1
    let startToSize := size - toEndSize
    let mem₁ := blit b.mem b.writePtr (content.take toEndSize.toNat)
    let mem₂ := blit mem₁ mallocStartPtr (content.drop toEndSize.toNat)
    (true, { b with mem := mem₂, writePtr := mallocStartPtr + startToSize })
  else
    (true, { b with mem := blit b.mem b.writePtr content, writePtr := b.writePtr + size })

/-- `Read(content, size)`: the bytes put in `content` when it returns true, `none` when it returns
false. -/
def read (b : CLoopBuffer) (size : ℕ) : Option (List UInt8) × CLoopBuffer :=
  if b.getReadableSize = 0 then
    (none, b)
  else if b.readPtr + size < b.mallocEndPtr ∨ b.readPtr + size = b.mallocEndPtr then
    (some (slice b.mem b.readPtr size), { b with readPtr := b.readPtr + size })
  else
    let toEndSize := b.mallocEndPtr - b.readPtr + 1
    let startToSize := size - toEndSize
    (some (slice b.mem b.readPtr toEndSize.toNat ++ slice b.mem mallocStartPtr startToSize.toNat),
      { b with readPtr := mallocStartPtr + (size - toEndSize) })

/-- A loop of `GetReadSize`: over `n` bytes from `p`, with `size` bytes counted before it. At the
first NUL the function returns the value on the left, else it goes on with the size on the right. -/
def scanNul (mem : ℤ → UInt8) (p : ℤ) : ℕ → ℕ → ℕ ⊕ ℕ
  | 0, size => .inr size
  | n + 1, size => if mem p = 0 then .inl (size + 1) else scanNul mem (p + 1) n (size + 1)

def getReadSize (b : CLoopBuffer) : ℕ :=
  let readableSize := b.getReadableSize
  if readableSize = 0 then 0
  else if b.readPtr < b.writePtr then
    match scanNul b.mem b.readPtr readableSize.toNat 0 with
    | .inl found => found
    | .inr size => size
  else
    let toEndSize := b.mallocEndPtr - b.readPtr + 1
    let startToSize := b.writePtr - mallocStartPtr
    match scanNul b.mem b.readPtr toEndSize.toNat 0 with
    | .inl found => found
    | .inr size =>
      match scanNul b.mem mallocStartPtr startToSize.toNat size with
      | .inl found => found
      | .inr size => size

end CLoopBuffer

end CodeTest.Net
