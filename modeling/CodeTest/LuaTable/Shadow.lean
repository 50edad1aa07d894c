import CodeTest.LuaTable.Clone

/-!
# Shadow tables

`genShadowTable` of `util.lua` makes a copy of a table, the shadow, in which an offset is added to
all numbers, and a proxy through which the table is to be changed from then on. The `__newindex` of
the proxy writes a number to the table and to the shadow. `isEqual` compares the table with the
shadow, to find changes that were made past the proxy.

Numbers are of any type with the operations that are used. As for NaN, a number need not be equal to
itself.
-/

namespace CodeTest

/-- The numbers of Lua: sums, and the operator `==`. A sum with an integer is equal to itself when
the number is. -/
class LuaNumber (N : Type) where
  add : N → N → N
  eq : N → N → Bool
  ofInt : ℤ → N
  add_ofInt : ∀ a n, eq a a = true → eq (add a (ofInt n)) (add a (ofInt n)) = true

/-- Integers as numbers. -/
instance : LuaNumber ℤ where
  add := (· + ·)
  eq a b := decide (a = b)
  ofInt := id
  add_ofInt := by simp

/-- The operator `==` for values that are not both tables. -/
def LuaValue.rawEqual {N : Type} [DecidableEq N] [LuaNumber N] : LuaValue N → LuaValue N → Bool
  | .number a, .number b => LuaNumber.eq a b
  | v, w => v = w

namespace LuaHeap

variable {N : Type} [DecidableEq N] [LuaNumber N]

/-- The loop of `_tableAddNumber` over the entries of the table `tb`. -/
def addEntries (addNumber : LuaHeap N → Addr → Except LuaError (LuaHeap N)) (nOffset : N)
    (tb : Addr) : List (Σ _ : LuaValue N, LuaValue N) → LuaHeap N → Except LuaError (LuaHeap N)
  | [], heap => .ok heap
  | ⟨k, .number n⟩ :: entries, heap =>
    addEntries addNumber nOffset tb entries (heap.rawset tb k (.number (LuaNumber.add n nOffset)))
  | ⟨_, .table v⟩ :: entries, heap => do
    let heap ← addNumber heap v
    addEntries addNumber nOffset tb entries heap
  | _ :: entries, heap => addEntries addNumber nOffset tb entries heap

/-- `_tableAddNumber`, with a recursion of at most the given depth. -/
def tableAddNumber (lua : Lua N) (nOffset : N) :
    ℕ → LuaHeap N → Addr → Except LuaError (LuaHeap N)
  | 0, _, _ => .error .stackOverflow
  | depth + 1, heap, tb => do
    let entries ← heap.pairs lua tb
    addEntries (tableAddNumber lua nOffset depth) nOffset tb entries heap

/-- The operator `==` for tables, with the metamethod `__eq`. -/
def equal (lua : Lua N) (heap : LuaHeap N) (p q : Addr) : Bool :=
  p = q ||
    match (heap.metafield p "__eq").or (heap.metafield q "__eq") with
    | some (.function f) => LuaValue.truthy (lua.call f p (.table q))
    | _ => false

/-- The body of the loop of `isEqual`: the values of a key in `tb1` and `tb2`. -/
def equalValues (isEqual : Addr → Addr → Except LuaError Bool) (nOffset : N) :
    Option (LuaValue N) → Option (LuaValue N) → Except LuaError Bool
  | some (.table p), some (.table q) => isEqual p q
  | some (.table _), _ => .ok true
  | _, some (.table _) => .ok true
  | some (.number n), some w => .ok ((LuaValue.number (LuaNumber.add n nOffset)).rawEqual w)
  | some v, some w => .ok (!LuaValue.truthy (some v) || v.rawEqual w)
  | some v, none => .ok (!LuaValue.truthy (some v))
  | none, _ => .ok true

/-- The loop of `isEqual` over the entries of `tb2`. -/
def equalEntries (lua : Lua N) (isEqual : Addr → Addr → Except LuaError Bool) (heap : LuaHeap N)
    (nOffset : N) (tb1 tb2 : Addr) :
    List (Σ _ : LuaValue N, LuaValue N) → Except LuaError Bool
  | [] => .ok true
  | e :: entries => do
    let v ← heap.index lua (.table tb1) e.1
    let w ← heap.index lua (.table tb2) e.1
    if ← equalValues isEqual nOffset v w then
      equalEntries lua isEqual heap nOffset tb1 tb2 entries
    else return false

/-- `isEqual(tb1, tb2, nOffset)` for two tables, with a recursion of at most the given depth. -/
def isEqual (lua : Lua N) (heap : LuaHeap N) (nOffset : N) :
    ℕ → Addr → Addr → Except LuaError Bool
  | 0, _, _ => .error .stackOverflow
  | depth + 1, tb1, tb2 =>
    if heap.equal lua tb1 tb2 then .ok true
    else do
      let entries ← heap.pairs lua tb2
      equalEntries lua (isEqual lua heap nOffset depth) heap nOffset tb1 tb2 entries

/-- `rawset(t, k, v)`, where `v` may be `nil`. -/
def rawassign (heap : LuaHeap N) (p : Addr) (key : LuaValue N) (value : Option (LuaValue N)) :
    Except LuaError (LuaHeap N) :=
  match key with
  | .number n =>
    if LuaNumber.eq n n then
      .ok (heap.modify p fun t => { t with entries := t.entries.assign key value })
    else .error .indexNaN
  | _ => .ok (heap.modify p fun t => { t with entries := t.entries.assign key value })

end LuaHeap

/-- The memory after a call of `genShadowTable`, and what the function `__newindex` that it has made
refers to. -/
structure Shadowed (N : Type) where
  heap : LuaHeap N
  tSource : Addr
  tNew : Addr
  tShadow : Addr
  nOffset : N
  /-- The function `__newindex`. -/
  newindex : ℕ

namespace Shadowed

variable {N : Type} [DecidableEq N] [LuaNumber N]

/-- `genShadowTable(tSource, nOffset)`. The recursions are of at most the given depth, and the
function that is made is `newindex`. -/
def genShadowTable (lua : Lua N) (depth : ℕ) (newindex : ℕ) (heap : LuaHeap N) (tSource : Addr)
    (nOffset : ℤ) : Except LuaError (Shadowed N) := do
  let tNew := lua.alloc.fresh heap
  let heap : LuaHeap N := heap.insert tNew ⟨∅, none⟩
  let (copy, heap) ← heap.clone lua depth (.table tSource)
  let .table tShadow := copy | throw .indexValue
  let heap ← heap.tableAddNumber lua (LuaNumber.ofInt nOffset) depth tShadow
  let mt := lua.alloc.fresh heap
  let heap : LuaHeap N := heap.insert mt
    ⟨(AList.insert (.string "__index") (.table tSource) ∅).insert (.string "__newindex")
      (.function newindex), none⟩
  let heap ← heap.setmetatable tNew (some (.table mt))
  return ⟨heap, tSource, tNew, tShadow, LuaNumber.ofInt nOffset, newindex⟩

/-- The function `__newindex` of the proxy. -/
def setThrough (s : Shadowed N) (k : LuaValue N) (v : Option (LuaValue N)) :
    Except LuaError (Shadowed N) := do
  let heap ← s.heap.rawassign s.tSource k v
  match v with
  | some (.number n) =>
    let heap ← heap.rawassign s.tShadow k (some (.number (LuaNumber.add n s.nOffset)))
    return { s with heap }
  | _ => return { s with heap }

/-- The assignment `t[k] = v` to a table, through a chain of at most `n` tables. -/
def assignChain (s : Shadowed N) :
    ℕ → Addr → LuaValue N → Option (LuaValue N) → Except LuaError (Shadowed N)
  | 0, _, _, _ => .error .indexChain
  | n + 1, t, k, v =>
    match s.heap.rawget t k, s.heap.metafield t "__newindex" with
    | none, some (.function f) => if f = s.newindex then s.setThrough k v else .error .metamethod
    | none, some (.table t') => s.assignChain n t' k v
    | none, some _ => .error .indexValue
    | _, _ => (s.heap.rawassign t k v).map fun heap => { s with heap }

def assign (lua : Lua N) (s : Shadowed N) (t : Addr) (k : LuaValue N) (v : Option (LuaValue N)) :
    Except LuaError (Shadowed N) :=
  s.assignChain (lua.maxTagLoop + 1) t k v

end Shadowed

end CodeTest
