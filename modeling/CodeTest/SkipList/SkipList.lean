import CodeTest.Foundations.Chain
import CodeTest.Foundations.Memory
import Mathlib.Order.Basic

/-!
# The skip list

`SkipList` of `skiplist.lua`. The nodes are tables in a memory; nodes that are unlinked stay there.
What would raise an error, such as an index into `nil`, has no result. So has a walk along a level
that takes more steps than there are nodes: it has gone round and would never end.

A call of `insert` is given its own sequence of outcomes of `math.random() < self.p`.
-/

namespace CodeTest

/-- A node, with keys in `K` and values in `V`; `none` is `nil`. The head has no key. -/
structure Node (K V : Type) where
  key : Option K
  value : Option V
  level : ℕ
  forward : Table ℕ Addr := ∅

structure SkipList (K V : Type) where
  maxLevel : ℕ
  head : Addr
  nodes : Memory (Node K V)

namespace SkipList

variable {K V : Type} [LinearOrder K]

def new (alloc : Allocator (Node K V)) (maxLevel : ℕ) : SkipList K V :=
  let head := alloc.fresh ∅
  { maxLevel, head
    nodes := AList.insert head { key := none, value := none, level := maxLevel } ∅ }

/-- The inner loop of the descent at the level `i`, which stops before the first node whose key is
not below `key`. -/
def advance (s : SkipList K V) (i : ℕ) (key : K) : ℕ → Addr → Option Addr
  | 0, _ => none
  | fuel + 1, current => do
    let node ← s.nodes.lookup current
    match node.forward.lookup i with
    | none => return current
    | some next =>
      let nextKey ← (← s.nodes.lookup next).key
      if nextKey < key then s.advance i key fuel next else return current

/-- The descent from the level `i` on, with which all three operations begin: it ends in `current`
and notes the place at each level in `update`. -/
def descend (s : SkipList K V) (key : K) : ℕ → Addr → Table ℕ Addr → Option (Addr × Table ℕ Addr)
  | 0, current, update => some (current, update)
  | i + 1, current, update => do
    let current ← s.advance (i + 1) key s.nodes.entries.length current
    s.descend key i current (update.insert (i + 1) current)

/-- The node after `current`, if it is there and has the key: `current = current.forward[1]` and the
test that follows. -/
def candidate (s : SkipList K V) (key : K) (current : Addr) : Option (Option Addr) := do
  match (← s.nodes.lookup current).forward.lookup 1 with
  | none => return none
  | some next => if (← s.nodes.lookup next).key = some key then return some next else return none

def find (s : SkipList K V) (key : K) : Option (Option V) := do
  let (current, _) ← s.descend key s.maxLevel s.head ∅
  match ← s.candidate key current with
  | none => return none
  | some next => return (← s.nodes.lookup next).value

/-- The level of a new node: it grows as long as the draws say so, up to `maxLevel`. -/
def randomLevel (maxLevel : ℕ) (draw : ℕ → Bool) (level : ℕ) : ℕ :=
  if draw (level - 1) ∧ level < maxLevel then randomLevel maxLevel draw (level + 1) else level
termination_by maxLevel - level

/-- `p.forward[i] = q`. -/
def setForward (nodes : Memory (Node K V)) (p : Addr) (i : ℕ) (q : Option Addr) :
    Memory (Node K V) :=
  nodes.modify p fun node => { node with forward := node.forward.assign i q }

/-- The loop that links a new node in at the levels `is`. -/
def link (node : Addr) (update : Table ℕ Addr) :
    List ℕ → Memory (Node K V) → Option (Memory (Node K V))
  | [], nodes => some nodes
  | i :: is, nodes => do
    let before ← update.lookup i
    let after := (← nodes.lookup before).forward.lookup i
    link node update is (setForward (setForward nodes node i after) before i (some node))

def insert (alloc : Allocator (Node K V)) (s : SkipList K V) (key : K) (value : Option V)
    (draw : ℕ → Bool) : Option (SkipList K V) := do
  let (current, update) ← s.descend key s.maxLevel s.head ∅
  match ← s.candidate key current with
  | some next =>
    return { s with nodes := s.nodes.modify next fun node => { node with value := value } }
  | none =>
    let level := randomLevel s.maxLevel draw 1
    let node := alloc.fresh s.nodes
    let nodes ← link node update (List.range' 1 level)
      (s.nodes.insert node { key := some key, value, level })
    return { s with nodes }

/-- The loop that unlinks `current` at the levels `is`, until it meets a level at which `current`
does not follow. -/
def unlink (current : Addr) (update : Table ℕ Addr) :
    List ℕ → Memory (Node K V) → Option (Memory (Node K V))
  | [], nodes => some nodes
  | i :: is, nodes => do
    let before ← update.lookup i
    if (← nodes.lookup before).forward.lookup i = some current then
      let after := (← nodes.lookup current).forward.lookup i
      unlink current update is (setForward nodes before i after)
    else return nodes

def delete (s : SkipList K V) (key : K) : Option (SkipList K V) := do
  let (current, update) ← s.descend key s.maxLevel s.head ∅
  match ← s.candidate key current with
  | none => return s
  | some next =>
    let nodes ← unlink next update (List.range' 1 (← s.nodes.lookup next).level) s.nodes
    return { s with nodes }

end SkipList

end CodeTest
