import CodeTest.Foundations.Memory

/-!
# The heap of nodes

`minheap.c`. The heap is an array of pointers to nodes, each of which knows its position; a node
that is in no heap has the position -1. The sifts do not swap: they move a hole, and put the node
into it at the end. The memory of the nodes is part of the state. What would read beyond the array,
an entry of it that nothing was written to, or a node that is not allocated, has no result.

Positions are natural numbers, since the array cannot have `2 ^ 31` entries, and `realloc` does not
fail.
-/

namespace CodeTest.UvLua

structure MinHeapNode where
  minheap_idx : ℤ := -1
  ev_timeout : ℤ

/-- The heap: the array, of which the first `n` entries are in use. -/
structure MinHeap where
  p : List (Option Addr)
  n : ℕ
  nodes : Memory MinHeapNode

namespace MinHeap

/-- `minheap_init`, with the nodes that are allocated. -/
def init (nodes : Memory MinHeapNode) : MinHeap := { p := [], n := 0, nodes := nodes }

/-- `s->p[i]`. -/
def entry (s : MinHeap) (i : ℕ) : Option Addr := s.p[i]?.join

def timeout (s : MinHeap) (e : Addr) : Option ℤ := (s.nodes.lookup e).map MinHeapNode.ev_timeout

def idx (s : MinHeap) (e : Addr) : Option ℤ := (s.nodes.lookup e).map MinHeapNode.minheap_idx

/-- `minheap_elem_greater`. -/
def elemGreater (s : MinHeap) (a b : Addr) : Option Bool := do
  let ta ← s.timeout a
  let tb ← s.timeout b
  return tb < ta

/-- `e->minheap_idx = i`. -/
def setIdx (s : MinHeap) (e : Addr) (i : ℤ) : Option MinHeap := do
  let nodes ← s.nodes.write e fun node => { node with minheap_idx := i }
  return { s with nodes }

/-- `(s->p[i] = e)->minheap_idx = i`. -/
def put (s : MinHeap) (i : ℕ) (e : Addr) : Option MinHeap :=
  if i < s.p.length then ({ s with p := s.p.set i (some e) }).setIdx e i else none

/-- `s->p[--s->n]`. -/
def takeLast (s : MinHeap) : Option (Addr × MinHeap) :=
  if s.n = 0 then none
  else do
    let last ← s.entry (s.n - 1)
    return (last, { s with n := s.n - 1 })

/-- `minheap_reserve_`. -/
def reserve (s : MinHeap) (n : ℕ) : MinHeap :=
  if s.p.length < n then
    let a := if s.p.length ≠ 0 then s.p.length * 2 else 8
    let a := if a < n then n else a
    { s with p := s.p ++ List.replicate (a - s.p.length) none }
  else s

/-- `minheap_shift_up_`. -/
def shiftUp (s : MinHeap) (hole_index : ℕ) (e : Addr) : Option MinHeap :=
  let parent := (hole_index - 1) / 2
  if 0 < hole_index then do
    let above ← s.entry parent
    if ← s.elemGreater above e then
      let s ← s.put hole_index above
      s.shiftUp parent e
    else s.put hole_index e
  else s.put hole_index e
termination_by hole_index
decreasing_by omega

/-- `minheap_shift_up_unconditional_`: the first turn of its loop is made without a look, and what
follows is the loop of `minheap_shift_up_`. -/
def shiftUpUnconditional (s : MinHeap) (hole_index : ℕ) (e : Addr) : Option MinHeap := do
  let parent := (hole_index - 1) / 2
  let above ← s.entry parent
  let s ← s.put hole_index above
  s.shiftUp parent e

/-- What is subtracted from `min_child` in the loop of `minheap_shift_down_`, for a heap of `n`
nodes. -/
def leftFirst (n : ℕ) (s : MinHeap) (min_child : ℕ) : Option Bool :=
  if min_child = n then some true
  else do
    let right ← s.entry min_child
    let left ← s.entry (min_child - 1)
    s.elemGreater right left

/-- The loop of `minheap_shift_down_`. -/
def shiftDownLoop (n : ℕ) (s : MinHeap) (hole_index : ℕ) (e : Addr) : Option MinHeap :=
  let min_child := 2 * (hole_index + 1)
  if min_child ≤ n then do
    let left ← leftFirst n s min_child
    let child := if left then min_child - 1 else min_child
    let below ← s.entry child
    if ← s.elemGreater e below then
      let s ← s.put hole_index below
      shiftDownLoop n s child e
    else s.put hole_index e
  else s.put hole_index e
termination_by n - hole_index
decreasing_by
  have : hole_index < n := by omega
  split <;> omega

/-- `minheap_shift_down_`. -/
def shiftDown (s : MinHeap) (hole_index : ℕ) (e : Addr) : Option MinHeap :=
  shiftDownLoop s.n s hole_index e

/-- `minheap_push`. -/
def push (s : MinHeap) (e : Addr) : Option MinHeap :=
  let s := s.reserve (s.n + 1)
  ({ s with n := s.n + 1 }).shiftUp s.n e

/-- `minheap_pop`. -/
def pop (s : MinHeap) : Option (Option Addr × MinHeap) :=
  if s.n ≠ 0 then do
    let e ← s.entry 0
    let (last, s) ← s.takeLast
    let s ← s.shiftDown 0 last
    let s ← s.setIdx e (-1)
    return (some e, s)
  else some (none, s)

/-- The statement that `minheap_erase` and `minheap_adjust` share: the node `x` goes to `idx`, and
up or down from there. -/
def settle (s : MinHeap) (idx : ℕ) (x : Addr) : Option MinHeap := do
  let up ←
    if 0 < idx then do
      let above ← s.entry ((idx - 1) / 2)
      s.elemGreater above x
    else some false
  if up then s.shiftUpUnconditional idx x else s.shiftDown idx x

/-- `minheap_erase`. -/
def erase (s : MinHeap) (e : Addr) : Option (ℤ × MinHeap) := do
  let idx ← s.idx e
  if idx ≠ -1 then
    let (last, s) ← s.takeLast
    let s ← s.settle idx.toNat last
    let s ← s.setIdx e (-1)
    return (0, s)
  else return (-1, s)

/-- `minheap_adjust`. -/
def adjust (s : MinHeap) (e : Addr) : Option MinHeap := do
  let idx ← s.idx e
  if idx = -1 then s.push e
  else s.settle idx.toNat e

/-- `minheap_elm_inheap`. -/
def elmInheap (s : MinHeap) (e : Addr) : Option Bool := (s.idx e).map (· ≠ -1)

end MinHeap

end CodeTest.UvLua
