import CodeTest.Foundations.BinaryHeap
import CodeTest.Foundations.Memory

/-!
# The heap timer

`MinHeapTimer` of `timer.cpp`. The nodes live in a memory of their own, `_heap` is a vector of
pointers into it, and `_map` leads from an id to the pointer of its node. `current_time()` is an
argument of `addTimer`. What would use a node that was deleted has no result: `delNode` is `none`
there.

Positions are natural numbers: the `int` product `parent * 2 + 1` of `_shiftDown` overflows only for
a position from 2³⁰ on, which has no children, and the unsigned `_heap.size() - 1` is only computed
for a heap that is not empty.
-/

namespace CodeTest

open BinaryHeap (exchange)

/-- A node, with callbacks in `Cb`; `none` is the null pointer. -/
structure TimerNode (Cb : Type*) where
  idx : ℕ := 0
  id : ℤ := 0
  expire : UInt32 := 0
  cb : Option Cb := none

structure MinHeapTimer (Cb : Type*) where
  nodes : Memory (TimerNode Cb)
  _heap : List Addr
  _map : Table ℤ Addr
  _count : ℤ

namespace MinHeapTimer

variable {Cb : Type*}

/-- The constructor. -/
def new : MinHeapTimer Cb := { nodes := ∅, _heap := [], _map := ∅, _count := 0 }

/-- `Count`, on an `int`. -/
def count (t : MinHeapTimer Cb) : ℤ × MinHeapTimer Cb :=
  let n := (t._count + 1).bmod (2 ^ 32)
  (n, { t with _count := n })

/-- `_heap[i]->expire`. The default for a position without a node is never used. -/
def expireAt (t : MinHeapTimer Cb) (i : ℕ) : UInt32 :=
  ((t._heap[i]?).bind fun p => t.nodes.lookup p).elim 0 TimerNode.expire

def compare (t : MinHeapTimer Cb) (lhs rhs : ℕ) : Bool := t.expireAt lhs < t.expireAt rhs

/-- `_heap[i]->idx = i`. -/
def setIdx (t : MinHeapTimer Cb) (i : ℕ) : MinHeapTimer Cb :=
  match t._heap[i]? with
  | none => t
  | some p => { t with nodes := t.nodes.modify p fun node => { node with idx := i } }

/-- The three statements by which both sifts swap the nodes at two positions. -/
def swapNodes (t : MinHeapTimer Cb) (parent child : ℕ) : MinHeapTimer Cb :=
  (({ t with _heap := exchange t._heap parent child }).setIdx parent).setIdx child

theorem heap_setIdx (t : MinHeapTimer Cb) (i : ℕ) : (t.setIdx i)._heap = t._heap := by
  unfold setIdx
  split <;> rfl

theorem heap_swapNodes (t : MinHeapTimer Cb) (i j : ℕ) :
    (t.swapNodes i j)._heap = exchange t._heap i j := by
  rw [swapNodes, heap_setIdx, heap_setIdx]

/-- The child that `_shiftDown` compares with: `child` or, when it is within the bound and not
larger, the next one. The bound leaves out the last node, which is about to be popped. -/
def pickChild (t : MinHeapTimer Cb) (child : ℕ) : ℕ :=
  if child + 1 < t._heap.length - 1 ∧ ¬ t.compare child (child + 1) then child + 1 else child

/-- `_shiftDown`. -/
def shiftDown (t : MinHeapTimer Cb) (parent : ℕ) : MinHeapTimer Cb :=
  if parent * 2 + 1 < t._heap.length - 1 then
    if ¬ t.compare parent (t.pickChild (parent * 2 + 1)) then
      (t.swapNodes parent (t.pickChild (parent * 2 + 1))).shiftDown (t.pickChild (parent * 2 + 1))
    else t
  else t
termination_by t._heap.length - parent
decreasing_by
  rw [heap_swapNodes, BinaryHeap.length_exchange, pickChild]
  split_ifs <;> omega

/-- `_shiftUp`. -/
def shiftUp (t : MinHeapTimer Cb) (child : ℕ) : MinHeapTimer Cb :=
  let parent := (child - 1) / 2
  if 0 < child then
    if ¬ t.compare parent child then (t.swapNodes parent child).shiftUp parent else t
  else t
termination_by child
decreasing_by omega

def resign (t : MinHeapTimer Cb) (pos : ℕ) : MinHeapTimer Cb := (t.shiftDown pos).shiftUp pos

/-- A new node is filled in and put at the end of the heap. -/
def pushNode (t : MinHeapTimer Cb) (p : Addr) (node : TimerNode Cb) : MinHeapTimer Cb :=
  { t with nodes := t.nodes.insert p node, _heap := t._heap ++ [p] }

/-- `AddTimer` at the time `now`. The sum of the two `uint32_t` wraps round. -/
def addTimer (alloc : Allocator (TimerNode Cb)) (t : MinHeapTimer Cb) (now expire : UInt32)
    (cb : Option Cb) : ℤ × MinHeapTimer Cb :=
  let timeout := now + expire
  let node := alloc.fresh t.nodes
  let (id, t) := t.count
  let t := t.pushNode node { idx := t._heap.length, id, expire := timeout, cb }
  let t := t.shiftUp (t._heap.length - 1)
  -- `map::insert` keeps an entry that is there
  (id, { t with _map := if id ∈ t._map then t._map else t._map.insert id node })

/-- The node at the end of the heap is popped, with its entry in the map, and freed. -/
def popNode (t : MinHeapTimer Cb) (p : Addr) (id : ℤ) : MinHeapTimer Cb :=
  { t with _heap := t._heap.dropLast, _map := t._map.erase id, nodes := t.nodes.erase p }

/-- `_delNode`. -/
def delNode (t : MinHeapTimer Cb) (node : Addr) : Option (MinHeapTimer Cb) := do
  let last := t._heap.length - 1
  let idx := (← t.nodes.lookup node).idx
  let t :=
    if idx ≠ last then
      (({ t with _heap := exchange t._heap idx last }).setIdx idx).resign idx
    else t
  let id := (← t.nodes.lookup node).id
  return t.popNode node id

def delTimer (t : MinHeapTimer Cb) (id : ℤ) : Option (Bool × MinHeapTimer Cb) :=
  match t._map.lookup id with
  | none => some (false, t)
  | some node => (t.delNode node).map fun t => (true, t)

end MinHeapTimer

end CodeTest
