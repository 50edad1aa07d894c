import CodeTest.Foundations.Machine
import CodeTest.Foundations.Regions

/-!
# The pool allocator

`PoolAlloter` of `pool_alloter.cpp`. Pointers are numbers, and `nullptr` is 0. A block on a free
list holds the pointer to the next one: `memory` has, at an address, the pointer that is stored
there. A request of more than `__default_max_bytes` goes to `malloc`; otherwise a block comes from
the free list for its size or, when that is empty, from the pool, which is got from `malloc` for
twenty blocks at a time. What `malloc` returns is an argument of the operations, and is not null.

An access to `_free_list` that is out of its bounds has no result.
-/

namespace CodeTest.CppNet

/-- `sizeof(unsigned long)`. -/
def align : UInt32 := 8

/-- `Alloter::Align`. -/
def alignUp (size : UInt32) : UInt32 := (size + align - 1) &&& ~~~(align - 1)

def defaultMaxBytes : UInt32 := 256

def defaultNumberOfFreeLists : UInt32 := defaultMaxBytes / align

def defaultNumberAddNodes : UInt32 := 20

structure PoolAlloter where
  _pool_start : ℕ
  _pool_end : ℕ
  _free_list : List ℕ
  _malloc_vec : List ℕ
  memory : ℕ → ℕ

namespace PoolAlloter

/-- The constructor, with what the memory holds. -/
def new (memory : ℕ → ℕ) : PoolAlloter where
  _pool_start := 0
  _pool_end := 0
  _free_list := List.replicate defaultNumberOfFreeLists.toNat 0
  _malloc_vec := []
  memory := memory

def freeListIndex (size : UInt32) : UInt32 := (size + align - 1) / align - 1

/-- `my_free = _free_list[FreeListIndex(size)]`. -/
def listHead (s : PoolAlloter) (size : UInt32) : Option ℕ :=
  s._free_list[(freeListIndex size).toNat]?

/-- `_free_list[FreeListIndex(size)] = node`. -/
def setHead (s : PoolAlloter) (size : UInt32) (node : ℕ) : Option PoolAlloter :=
  if (freeListIndex size).toNat < s._free_list.length then
    some { s with _free_list := s._free_list.set (freeListIndex size).toNat node }
  else none

/-- `node->_next = next`. -/
def setNext (s : PoolAlloter) (node next : ℕ) : PoolAlloter :=
  { s with memory := Function.update s.memory node next }

def leftBytes (s : PoolAlloter) : UInt32 := UInt32.ofNat (s._pool_end - s._pool_start)

/-- The branches of `ChunkAlloc` in which the pool has enough for a block: the blocks, the number of
them and the pool after them. -/
def fromPool (s : PoolAlloter) (size nums : UInt32) : Option ((ℕ × UInt32) × PoolAlloter) :=
  let need_bytes := size * nums
  if need_bytes ≤ s.leftBytes then
    some ((s._pool_start, nums), { s with _pool_start := s._pool_start + need_bytes.toNat })
  else if size ≤ s.leftBytes then
    let nums := s.leftBytes / size
    let need_bytes := size * nums
    some ((s._pool_start, nums), { s with _pool_start := s._pool_start + need_bytes.toNat })
  else none

/-- The other branch, up to the call of `ChunkAlloc` at its end: what is left of the pool is put on
a free list, and `fresh` is the new pool. -/
def newPool (fresh : ℕ) (s : PoolAlloter) (size nums : UInt32) : Option PoolAlloter := do
  let bytes_to_get := size * nums
  let s ←
    if 0 < s.leftBytes then do
      let my_free ← s.listHead s.leftBytes
      (s.setNext s._pool_start my_free).setHead size s._pool_start
    else some s
  return { s with
    _pool_start := fresh, _malloc_vec := s._malloc_vec ++ [fresh]
    _pool_end := fresh + bytes_to_get.toNat }

/-- `ChunkAlloc`; a new pool that has not enough for a block would be asked for again without
end. -/
def chunkAlloc (fresh : ℕ) (s : PoolAlloter) (size nums : UInt32) :
    Option ((ℕ × UInt32) × PoolAlloter) :=
  match s.fromPool size nums with
  | some r => some r
  | none => do
    let s ← s.newPool fresh size nums
    s.fromPool size nums

/-- The loop of `ReFill`: `n` nodes of `size` bytes each, from `current` on, are made a chain. -/
def linkNodes (size : ℕ) : ℕ → ℕ → PoolAlloter → PoolAlloter
  | 0, _, s => s
  | 1, current, s => s.setNext current 0
  | n + 2, current, s =>
    linkNodes size (n + 1) (current + size) (s.setNext current (current + size))

def reFill (fresh : ℕ) (s : PoolAlloter) (size : UInt32) : Option (ℕ × PoolAlloter) := do
  let ((chunk, nums), s) ← s.chunkAlloc fresh size defaultNumberAddNodes
  if nums = 1 then return (chunk, s)
  else
    let s ← s.setHead size (chunk + size.toNat)
    return (chunk, linkNodes size.toNat (nums - 1).toNat (chunk + size.toNat) s)

def malloc (fresh : ℕ) (s : PoolAlloter) (size : UInt32) : Option (ℕ × PoolAlloter) :=
  if defaultMaxBytes < size then some (fresh, s)
  else do
    let result ← s.listHead size
    if result = 0 then s.reFill fresh (alignUp size)
    else
      let s ← s.setHead size (s.memory result)
      return (result, s)

def free (s : PoolAlloter) (data : ℕ) (len : UInt32) : Option PoolAlloter :=
  if data = 0 then some s
  else if defaultMaxBytes < len then some s
  else do
    let my_free ← s.listHead len
    (s.setNext data my_free).setHead len data

/-- `Malloc` asks `malloc` for a new pool. -/
def Expands (s : PoolAlloter) (size : UInt32) : Prop :=
  size ≤ defaultMaxBytes ∧ s.listHead size = some 0 ∧ s.leftBytes < alignUp size

instance (s : PoolAlloter) (size : UInt32) : Decidable (s.Expands size) :=
  inferInstanceAs
    (Decidable (size ≤ defaultMaxBytes ∧ s.listHead size = some 0 ∧ s.leftBytes < alignUp size))

/-- The number of bytes that `Malloc` asks `malloc` for, if it does. -/
def asks (s : PoolAlloter) (size : UInt32) : Option ℕ :=
  if defaultMaxBytes < size then some size.toNat
  else if s.Expands size then some (alignUp size * defaultNumberAddNodes).toNat
  else none

end PoolAlloter

/-! ## A session -/

/-- A block that a client has got, with the size it asked for. -/
structure ClientBlock where
  start : ℕ
  size : UInt32
deriving DecidableEq

/-- A number of bytes in whole words. -/
def wholeWords (n : ℕ) : ℕ := (n + 7) / 8 * 8

/-- The words of the block. -/
def ClientBlock.extent (b : ClientBlock) : Region := ⟨b.start, wholeWords b.size.toNat⟩

/-- The allocator with its clients: the blocks that they have, what they know of the contents of
memory, and the pools that were got from `malloc`. -/
structure Session where
  pool : PoolAlloter
  live : List ClientBlock
  chunks : List Region
  known : ℕ → ℕ

/-- What may happen next; `fresh` is what `malloc` returns if it is called. -/
inductive ClientEvent
  | malloc (size : UInt32) (fresh : ℕ)
  | free (b : ClientBlock) (len : UInt32)
  | write (w v : ℕ)

namespace Session

def new (memory : ℕ → ℕ) : Session :=
  { pool := .new memory, live := [], chunks := [], known := memory }

/-- A client has got a block, and looks at what is in it. -/
def got (s : Session) (size : UInt32) (fresh start : ℕ) (pool : PoolAlloter) : Session where
  pool := pool
  live := ⟨start, size⟩ :: s.live
  chunks :=
    if s.pool.Expands size then ⟨fresh, (alignUp size * defaultNumberAddNodes).toNat⟩ :: s.chunks
    else s.chunks
  known w :=
    if (ClientBlock.extent ⟨start, size⟩).Covers w then pool.memory w else s.known w

/-- One step. -/
def step (s : Session) : ClientEvent → Option Session
  | .malloc size fresh => do
    let (start, pool) ← s.pool.malloc fresh size
    return s.got size fresh start pool
  | .free b len => do
    let pool ← s.pool.free b.start len
    return { s with pool, live := s.live.erase b }
  | .write w v =>
    some { s with
      pool := { s.pool with memory := Function.update s.pool.memory w v }
      known := Function.update s.known w v }

/-- A block has at least one byte, and `malloc` returns words that are not in use; a client gives
back a block that it has, with a size of as many words, and writes to words of its blocks. -/
def Allowed (s : Session) : ClientEvent → Prop
  | .malloc size fresh =>
    0 < size ∧ ∀ n ∈ s.pool.asks size, 0 < fresh ∧ 8 ∣ fresh ∧
      ∀ r ∈ s.chunks ++ s.live.map ClientBlock.extent,
        Region.Disjoint ⟨fresh, wholeWords n⟩ r
  | .free b len => b ∈ s.live ∧ wholeWords len.toNat = wholeWords b.size.toNat
  | .write w _ => ∃ b ∈ s.live, b.extent.Covers w

instance decidableAllowed (s : Session) : ∀ e, Decidable (Allowed s e)
  | .malloc size fresh =>
    inferInstanceAs (Decidable (0 < size ∧ ∀ n ∈ s.pool.asks size, 0 < fresh ∧ 8 ∣ fresh ∧
      ∀ r ∈ s.chunks ++ s.live.map ClientBlock.extent,
        Region.Disjoint ⟨fresh, wholeWords n⟩ r))
  | .free b len =>
    inferInstanceAs (Decidable (b ∈ s.live ∧ wholeWords len.toNat = wholeWords b.size.toNat))
  | .write w _ => inferInstanceAs (Decidable (∃ b ∈ s.live, b.extent.Covers w))

end Session

end CodeTest.CppNet
