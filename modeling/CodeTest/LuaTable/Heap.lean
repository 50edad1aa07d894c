import CodeTest.Foundations.Memory

/-!
# Tables of Lua in memory

The values of Lua and the tables that they refer to, as far as `util.lua` uses them: the traversal
`pairs`, the access `t[k]` with the metamethod `__index`, `getmetatable` with its field
`__metatable`, `setmetatable` and `rawset`. The value `nil` is `none`, so a table has no entry with
it. The numbers are of any type; functions, and all other values without parts, are only told apart.

A function that is `__index` or `__eq` has an answer that does not depend on anything but its
arguments. The calls of functions that are `__pairs` or `__newindex` are left out.
-/

namespace CodeTest

/-- A value other than `nil`. -/
inductive LuaValue (N : Type)
  | boolean (b : Bool)
  | number (n : N)
  | string (s : String)
  | function (f : ℕ)
  | table (p : Addr)
  deriving DecidableEq

/-- A table: its entries and the address of its metatable. -/
structure LuaTable (N : Type) where
  entries : Table (LuaValue N) (LuaValue N)
  metatable : Option Addr

abbrev LuaHeap (N : Type) := Memory (LuaTable N)

/-- Why a function does not return. -/
inductive LuaError
  /-- The recursion is too deep. -/
  | stackOverflow
  /-- An index of a value that is not a table. -/
  | indexValue
  /-- The chain of `__index` is too long. -/
  | indexChain
  /-- `setmetatable` is given something other than `nil` and tables, or finds a protected one. -/
  | setmetatable
  /-- A metamethod is called that is a function of the program. -/
  | metamethod
  /-- The key of an assignment is NaN. -/
  | indexNaN
  deriving DecidableEq

/-- What the language leaves open: the order of a traversal, the addresses of new tables, what a
function that is a metamethod answers for a table and another value, and how often an `__index` is
followed. -/
structure Lua (N : Type) where
  order : PairsOrder (LuaValue N) (LuaValue N)
  alloc : Allocator (LuaTable N)
  call : ℕ → Addr → LuaValue N → Option (LuaValue N)
  maxTagLoop : ℕ

/-- Traversals in the order of the entries, addresses after those in use, and no functions. -/
def Lua.simple (N : Type) : Lua N where
  order := .entries _ _
  alloc := .above _
  call _ _ _ := none
  maxTagLoop := 100

/-- The values that count as true in a condition. -/
def LuaValue.truthy {N : Type} : Option (LuaValue N) → Bool
  | none => false
  | some (.boolean b) => b
  | some _ => true

namespace LuaHeap

variable {N : Type} [DecidableEq N] (heap : LuaHeap N)

/-- An entry of a table, without metamethods. -/
def rawget (p : Addr) (key : LuaValue N) : Option (LuaValue N) :=
  (heap.lookup p).bind fun t => t.entries.lookup key

def rawset (p : Addr) (key value : LuaValue N) : LuaHeap N :=
  heap.modify p fun t => { t with entries := t.entries.insert key value }

/-- A field of the metatable of a table. -/
def metafield (p : Addr) (field : String) : Option (LuaValue N) :=
  (heap.lookup p).bind fun t => t.metatable.bind fun m => heap.rawget m (.string field)

/-- `getmetatable`: the field `__metatable` stands for the metatable. -/
def getmetatable (p : Addr) : Option (LuaValue N) :=
  (heap.lookup p).bind fun t => t.metatable.map fun m =>
    (heap.rawget m (.string "__metatable")).getD (.table m)

def setmetatable (p : Addr) (mt : Option (LuaValue N)) : Except LuaError (LuaHeap N) :=
  if (heap.metafield p "__metatable").isSome then .error .setmetatable
  else
    match mt with
    | none => .ok (heap.modify p fun t => { t with metatable := none })
    | some (.table m) => .ok (heap.modify p fun t => { t with metatable := some m })
    | some _ => .error .setmetatable

omit [DecidableEq N] in
/-- `next(t)`: the first key that a traversal meets. -/
def next (lua : Lua N) (p : Addr) : Option (LuaValue N) :=
  (heap.lookup p).bind fun t => lua.order.next t.entries

omit [DecidableEq N] in
/-- What a test makes of `next(t)`. -/
def testNext (lua : Lua N) (p : Addr) : Bool :=
  LuaValue.truthy (heap.next lua p)

/-- The first key of a table is `false`, which a test takes for the end of the table. -/
def FalseFirst (lua : Lua N) (p : Addr) : Prop :=
  heap.next lua p = some (.boolean false)

instance (lua : Lua N) (p : Addr) : Decidable (heap.FalseFirst lua p) :=
  inferInstanceAs (Decidable (_ = _))

/-- The entries of a table in the order of a traversal. -/
def pairs (lua : Lua N) (p : Addr) : Except LuaError (List (Σ _ : LuaValue N, LuaValue N)) :=
  if (heap.metafield p "__pairs").isSome then .error .metamethod
  else .ok (((heap.lookup p).map fun t => lua.order.pairs t.entries).getD [])

/-- The access `value[key]`, through a chain of at most `n` values. A string has the fields of the
library of strings, none of which is used here. -/
def indexChain (lua : Lua N) : ℕ → LuaValue N → LuaValue N → Except LuaError (Option (LuaValue N))
  | 0, _, _ => .error .indexChain
  | n + 1, .table p, key =>
    match heap.rawget p key with
    | some value => .ok (some value)
    | none =>
      match heap.metafield p "__index" with
      | none => .ok none
      | some (.function f) => .ok (lua.call f p key)
      | some value => indexChain lua n value key
  | _ + 1, .string _, _ => .ok none
  | _ + 1, _, _ => .error .indexValue

def index (lua : Lua N) (value key : LuaValue N) : Except LuaError (Option (LuaValue N)) :=
  heap.indexChain lua (lua.maxTagLoop + 1) value key

/-- A value that is no table, or a table that is there. -/
def Valid : LuaValue N → Prop
  | .table p => (heap.lookup p).isSome
  | _ => True

instance : ∀ v, Decidable (heap.Valid v)
  | .table p => inferInstanceAs (Decidable ((heap.lookup p).isSome = true))
  | .boolean _ => isTrue trivial
  | .number _ => isTrue trivial
  | .string _ => isTrue trivial
  | .function _ => isTrue trivial

/-- Every table that is referred to is there. -/
def Closed : Prop :=
  ∀ e ∈ heap.entries, (∀ e' ∈ e.2.entries.entries, heap.Valid e'.1 ∧ heap.Valid e'.2) ∧
    ∀ m ∈ e.2.metatable, (heap.lookup m).isSome

instance : Decidable heap.Closed :=
  inferInstanceAs (Decidable (∀ e ∈ heap.entries, _ ∧ _))

section Next

variable {heap} {lua : Lua N} {p : Addr}

variable (lua) in
theorem next_eq_none_iff : heap.next lua p = none ↔ ∀ key, heap.rawget p key = none := by
  unfold next rawget
  cases heap.lookup p with
  | none => simp
  | some t => simp [PairsOrder.next_eq_none_iff, Table.entries_eq_nil_iff]

/-- The first key is one of the table. -/
theorem isSome_of_next {key : LuaValue N} (h : heap.next lua p = some key) :
    (heap.rawget p key).isSome := by
  obtain ⟨t, ht, hkey⟩ := Option.bind_eq_some_iff.mp h
  rw [rawget, ht, Option.bind_some]
  exact AList.lookup_isSome.mpr (lua.order.mem_of_next hkey)

theorem testNext_eq_false_iff : heap.testNext lua p = false ↔
    (∀ key, heap.rawget p key = none) ∨ heap.FalseFirst lua p := by
  rw [← next_eq_none_iff lua, testNext, FalseFirst]
  cases heap.next lua p with
  | none => simp [LuaValue.truthy]
  | some key => cases key <;> simp [LuaValue.truthy]

variable (lua) in
omit [DecidableEq N] in
theorem testNext_congr {heap' : LuaHeap N} {q : Addr} (h : heap'.lookup q = heap.lookup p) :
    heap'.testNext lua q = heap.testNext lua p := by
  rw [testNext, next, h, testNext, next]

end Next

/-! ## Heaps that keep the tables of another one -/

variable {heap} {heap' : LuaHeap N}

omit [DecidableEq N] in
theorem Closed.table (h : heap.Closed) {p : Addr} {t : LuaTable N} (ht : heap.lookup p = some t) :
    (∀ e ∈ t.entries.entries, heap.Valid e.1 ∧ heap.Valid e.2) ∧
      ∀ m, t.metatable = some m → (heap.lookup m).isSome :=
  h ⟨p, t⟩ (AList.mem_lookup_iff.mp ht)

theorem rawget_kept (h : heap.Kept heap') {p : Addr} (hp : (heap.lookup p).isSome)
    (key : LuaValue N) : heap'.rawget p key = heap.rawget p key := by
  rw [rawget, h.lookup hp, rawget]

theorem metafield_kept (h : heap.Kept heap') (hclosed : heap.Closed) {p : Addr}
    (hp : (heap.lookup p).isSome) (field : String) :
    heap'.metafield p field = heap.metafield p field := by
  rw [metafield, h.lookup hp, metafield]
  obtain ⟨t, ht⟩ := Option.isSome_iff_exists.mp hp
  cases hm : t.metatable with
  | none => simp [ht, hm]
  | some m => simp [ht, hm, rawget_kept h ((hclosed.table ht).2 m hm)]

/-- A value of a field of a metatable is valid. -/
theorem Closed.metafield (hclosed : heap.Closed) {p : Addr} {field : String} {value : LuaValue N}
    (hfield : heap.metafield p field = some value) : heap.Valid value := by
  simp only [LuaHeap.metafield, LuaHeap.rawget, Option.bind_eq_some_iff] at hfield
  obtain ⟨t, ht, m, hm, tm, htm, hvalue⟩ := hfield
  exact ((hclosed.table htm).1 _ (AList.mem_lookup_iff.mp hvalue)).2

theorem indexChain_kept (h : heap.Kept heap') (hclosed : heap.Closed) (lua : Lua N) (n : ℕ)
    {value : LuaValue N} (hvalue : heap.Valid value)
    (key : LuaValue N) : heap'.indexChain lua n value key = heap.indexChain lua n value key := by
  induction n generalizing value with
  | zero => rfl
  | succ n ih =>
    cases value with
    | table p =>
      have hp : (heap.lookup p).isSome := hvalue
      rw [indexChain, rawget_kept h hp, metafield_kept h hclosed hp, indexChain]
      cases heap.rawget p key with
      | some value => rfl
      | none =>
        cases hfield : heap.metafield p "__index" with
        | none => rfl
        | some value =>
          have hnext := ih (hclosed.metafield hfield)
          cases value with
          | function f => rfl
          | _ => exact hnext
    | _ => rfl

end LuaHeap

end CodeTest
