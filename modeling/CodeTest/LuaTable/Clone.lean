import CodeTest.LuaTable.Heap
import Mathlib.Logic.Relation
import Mathlib.Data.Set.Function

/-!
# The deep copy of a table

`clone` of `util.lua` copies a table with all tables that its keys and values lead to. Its local
function `copyObj` notes the copy of a table in `lookup_table` before it copies the entries, so a
table that leads back to itself is copied once. The depth of the recursion is bounded by an argument
here. `DeepCopy` says what a copy is: a correspondence between the tables that the original leads to
and those that the copy leads to.
-/

namespace CodeTest

/-- The memory and `lookup_table` during a call of `clone`. -/
structure CloneState (N : Type) where
  heap : LuaHeap N
  lookupTable : Memory Addr

namespace LuaHeap

variable {N : Type} [DecidableEq N]

/-- The loop of `copyObj` over the entries of a table. -/
def copyEntries
    (copyObj : CloneState N → LuaValue N → Except LuaError (LuaValue N × CloneState N))
    (newTable : Addr) :
    List (Σ _ : LuaValue N, LuaValue N) → CloneState N → Except LuaError (CloneState N)
  | [], s => .ok s
  | e :: entries, s => do
    let (key, s) ← copyObj s e.1
    let (value, s) ← copyObj s e.2
    copyEntries copyObj newTable entries { s with heap := s.heap.rawset newTable key value }

/-- The condition `mt and mt.___sheetindex`. -/
def hasSheetindex (lua : Lua N) (heap : LuaHeap N) (mt : Option (LuaValue N)) :
    Except LuaError Bool :=
  match mt with
  | some value =>
    if LuaValue.truthy (some value) then
      (heap.index lua value (.string "___sheetindex")).map LuaValue.truthy
    else .ok false
  | none => .ok false

/-- The end of `copyObj`: the copy gets the metatable, unless it has `___sheetindex`. -/
def copyMetatable (lua : Lua N) (newTable : Addr) (mt : Option (LuaValue N)) (s : CloneState N) :
    Except LuaError (CloneState N) := do
  if ← hasSheetindex lua s.heap mt then return s
  else
    let heap ← s.heap.setmetatable newTable mt
    return { s with heap }

/-- The part of `copyObj` for a table that was not copied yet. -/
def copyTable (lua : Lua N)
    (copyObj : CloneState N → LuaValue N → Except LuaError (LuaValue N × CloneState N))
    (s : CloneState N) (p : Addr) : Except LuaError (LuaValue N × CloneState N) := do
  let newTable := lua.alloc.fresh s.heap
  let s : CloneState N := ⟨s.heap.insert newTable ⟨∅, none⟩, s.lookupTable.insert p newTable⟩
  let mt := s.heap.getmetatable p
  let entries ← s.heap.pairs lua p
  let s ← copyEntries copyObj newTable entries s
  let s ← copyMetatable lua newTable mt s
  return (.table newTable, s)

/-- `copyObj`, with a recursion of at most the given depth. -/
def copyObj (lua : Lua N) :
    ℕ → CloneState N → LuaValue N → Except LuaError (LuaValue N × CloneState N)
  | depth, s, .table p =>
    match s.lookupTable.lookup p with
    | some q => .ok (.table q, s)
    | none =>
      match depth with
      | 0 => .error .stackOverflow
      | depth + 1 => copyTable lua (copyObj lua depth) s p
  | _, s, v => .ok (v, s)

/-- `clone(object)`: the copy and the memory after it. -/
def clone (lua : Lua N) (depth : ℕ) (heap : LuaHeap N) (object : LuaValue N) :
    Except LuaError (LuaValue N × LuaHeap N) :=
  (copyObj lua depth ⟨heap, ∅⟩ object).map fun r => (r.1, r.2.heap)

/-! ## What a copy is -/

/-- A table refers to another one by a key or a value. -/
def Refers (heap : LuaHeap N) (p q : Addr) : Prop :=
  ∃ t, heap.lookup p = some t ∧ ∃ e ∈ t.entries.entries, e.1 = .table q ∨ e.2 = .table q

/-- The tables that a value leads to, through keys and values. -/
def reachable (heap : LuaHeap N) (v : LuaValue N) : Set Addr :=
  { q | ∃ p, v = .table p ∧ Relation.ReflTransGen heap.Refers p q }

end LuaHeap

/-- The value with a function applied to the table that it is. -/
def LuaValue.map {N : Type} (f : Addr → Addr) : LuaValue N → LuaValue N
  | .table p => .table (f p)
  | v => v

namespace LuaHeap

variable {N : Type} [DecidableEq N]

/-- The metatable of a copy: none when the metatable of the table has `___sheetindex`. -/
def copiedMetatable (lua : Lua N) (heap : LuaHeap N) (t : LuaTable N) : Option Addr :=
  t.metatable.bind fun m =>
    match hasSheetindex lua heap (some (.table m)) with
    | .ok true => none
    | _ => some m

/-- `clone` has made a copy: the tables it leads to are new and correspond to the tables that the
original leads to, with corresponding entries. -/
structure DeepCopy (lua : Lua N) (heap heap' : LuaHeap N) (v v' : LuaValue N) (f : Addr → Addr) :
    Prop where
  value : v' = v.map f
  bijOn : Set.BijOn f (heap.reachable v) (heap'.reachable v')
  table : ∀ p ∈ heap.reachable v, heap.lookup (f p) = none ∧
    ∃ t t', heap.lookup p = some t ∧ heap'.lookup (f p) = some t' ∧
      t'.entries.entries.Perm (t.entries.entries.map fun e => ⟨e.1.map f, e.2.map f⟩) ∧
      t'.metatable = copiedMetatable lua heap t

/-- What is expected of a call of `clone`: it returns, all tables are as they were, and what it
returns is a deep copy. -/
def Cloned (lua : Lua N) (heap : LuaHeap N) (object : LuaValue N) (depth : ℕ) : Prop :=
  ∃ object' heap' f, clone lua depth heap object = .ok (object', heap') ∧ heap.Kept heap' ∧
    DeepCopy lua heap heap' object object' f

/-- The metatable of a table can be copied and read: it has neither of the fields `__metatable` and
`__pairs`, and to read `___sheetindex` in it raises no error. -/
def Plain (lua : Lua N) (heap : LuaHeap N) (p : Addr) : Prop :=
  ∀ t ∈ heap.lookup p, ∀ m ∈ t.metatable,
    heap.rawget m (.string "__metatable") = none ∧ heap.rawget m (.string "__pairs") = none ∧
      (heap.index lua (.table m) (.string "___sheetindex")).isOk

instance (lua : Lua N) (heap : LuaHeap N) (p : Addr) : Decidable (Plain lua heap p) :=
  inferInstanceAs (Decidable (∀ t ∈ heap.lookup p, ∀ m ∈ t.metatable, _ ∧ _ ∧ _))

end LuaHeap

end CodeTest
