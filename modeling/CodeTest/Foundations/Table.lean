import Mathlib.Data.List.AList

/-!
# Tables

A table in the sense of Lua: finitely many keys, each with a value. The entries are listed in some
order, and the traversal `pairs` may go through them in any order: a `PairsOrder` is one such
traversal, and a function that uses `pairs` or `next` takes one as an argument.

A test such as `not next(t)` looks at the first key itself: it takes the key `false` for the end of
the table. `LuaKey` says of the values of a type which one that is.
-/

namespace CodeTest

/-- A table with keys `K` and values `V`. -/
abbrev Table (K V : Type*) := AList fun _ : K => V

/-- A traversal of the tables with keys `K` and values `V`. -/
structure PairsOrder (K V : Type*) where
  pairs : Table K V → List (Σ _ : K, V)
  perm : ∀ t, (pairs t).Perm t.entries

/-- The traversal in the order of the entries. -/
def PairsOrder.entries (K V : Type*) : PairsOrder K V := ⟨fun t => t.entries, fun _ => .refl _⟩

namespace Table

variable {K V : Type*} [DecidableEq K]

theorem lookup_insert_eq (t : Table K V) (k k' : K) (v : V) :
    (t.insert k v).lookup k' = if k' = k then some v else t.lookup k' := by
  split_ifs with h
  · subst h
    exact AList.lookup_insert t
  · exact AList.lookup_insert_ne h

theorem lookup_erase_eq (t : Table K V) (k k' : K) :
    (t.erase k).lookup k' = if k' = k then none else t.lookup k' := by
  split_ifs with h
  · subst h
    exact AList.lookup_erase k' t
  · exact AList.lookup_erase_ne h

theorem erase_erase_self (t : Table K V) (k : K) : (t.erase k).erase k = t.erase k := by
  apply AList.ext
  apply List.kerase_of_notMem_keys
  intro hmem
  exact (AList.mem_erase.mp (AList.mem_keys.mpr hmem)).1 rfl

/-- Assignment: to assign `nil` is to remove the key. -/
def assign (t : Table K V) (k : K) : Option V → Table K V
  | some v => t.insert k v
  | none => t.erase k

theorem lookup_assign (t : Table K V) (k k' : K) (v : Option V) :
    (t.assign k v).lookup k' = if k' = k then v else t.lookup k' := by
  cases v with
  | none => exact lookup_erase_eq t k k'
  | some v => exact lookup_insert_eq t k k' v

theorem entries_eq_nil_iff (t : Table K V) : t.entries = [] ↔ ∀ k, t.lookup k = none := by
  constructor
  · intro h k
    rw [show t = ∅ from AList.ext h]
    exact AList.lookup_empty k
  · intro h
    rw [List.eq_nil_iff_forall_not_mem]
    rintro ⟨k, v⟩ hmem
    have := AList.mem_lookup_iff.mpr hmem
    rw [h k] at this
    exact absurd this (by simp)

theorem erase_of_lookup_eq_none {t : Table K V} {k : K} (h : t.lookup k = none) :
    t.erase k = t := by
  apply AList.ext
  exact List.kerase_of_notMem_keys (AList.lookup_eq_none.mp h)

/-- Removing the keys of a list one after the other. -/
theorem lookup_foldl_erase (ks : List K) (t : Table K V) (k : K) :
    (ks.foldl (fun t k => t.erase k) t).lookup k = if k ∈ ks then none else t.lookup k := by
  induction ks generalizing t with
  | nil => simp
  | cons k' ks ih =>
    rw [List.foldl_cons, ih, lookup_erase_eq]
    by_cases h : k ∈ ks <;> by_cases h' : k = k' <;> simp [h, h']

theorem mem_pairs (order : PairsOrder K V) (t : Table K V) {k : K} {v : V} :
    ⟨k, v⟩ ∈ order.pairs t ↔ t.lookup k = some v := by
  rw [(order.perm t).mem_iff, ← AList.mem_lookup_iff, Option.mem_def]

omit [DecidableEq K] in
/-- A traversal meets the keys of the table. -/
theorem mem_keys_pairs (order : PairsOrder K V) (t : Table K V) {k : K} :
    k ∈ (order.pairs t).map Sigma.fst ↔ k ∈ t :=
  ((order.perm t).map Sigma.fst).mem_iff

end Table

namespace PairsOrder

/-- `next(t)`: the first key that a traversal meets, `none` for `nil`. -/
def next {K V : Type*} (order : PairsOrder K V) (t : Table K V) : Option K :=
  (order.pairs t).head?.map Sigma.fst

theorem next_eq_none_iff {K V : Type*} (order : PairsOrder K V) (t : Table K V) :
    order.next t = none ↔ t.entries = [] := by
  rw [next, Option.map_eq_none_iff, List.head?_eq_none_iff, ← List.length_eq_zero_iff,
    (order.perm t).length_eq, List.length_eq_zero_iff]

theorem mem_of_next {K V : Type*} [DecidableEq K] (order : PairsOrder K V) {t : Table K V} {k : K}
    (h : order.next t = some k) : k ∈ t := by
  obtain ⟨e, he, rfl⟩ := Option.map_eq_some_iff.mp h
  exact (Table.mem_keys_pairs order t).mp (List.mem_map_of_mem (List.mem_of_mem_head? he))

/-- The traversal in the order of the entries, but for the key `k`, which comes first. -/
def startingWith {K : Type*} [DecidableEq K] (k : K) (V : Type*) : PairsOrder K V where
  pairs t := (t.entries.filter fun e => e.1 = k) ++ t.entries.filter fun e => ¬ e.1 = k
  perm t := by
    simpa only [← decide_not] using
      List.filter_append_perm (fun e : Σ _ : K, V => e.1 = k) t.entries

theorem next_startingWith {K V : Type*} [DecidableEq K] {t : Table K V} {k : K} (h : k ∈ t) :
    (startingWith k V).next t = some k := by
  obtain ⟨e, he, rfl⟩ := List.mem_map.mp (AList.mem_keys.mp h)
  cases hl : t.entries.filter fun e' => e'.1 = e.1 with
  | nil => exact absurd (List.mem_filter.mpr ⟨he, by simp⟩) (hl ▸ List.not_mem_nil)
  | cons e' l =>
    have he' : e' ∈ t.entries.filter fun e' => e'.1 = e.1 := hl ▸ List.mem_cons_self
    have hkey : e'.1 = e.1 := by simpa using (List.mem_filter.mp he').2
    simp only [next, startingWith]
    rw [hl, List.cons_append, List.head?_cons, Option.map_some, hkey]

end PairsOrder

/-! ## Tests -/

/-- A type of values of Lua that are not `nil`. In a test all of them count as true except `false`.
-/
class LuaKey (K : Type*) where
  isFalse : K → Bool

instance : LuaKey Bool := ⟨fun b => !b⟩

/-- Numbers. -/
instance : LuaKey ℕ := ⟨fun _ => false⟩

/-- What a test makes of `next(t)`. -/
def PairsOrder.testNext {K V : Type*} [LuaKey K] (order : PairsOrder K V) (t : Table K V) : Bool :=
  (order.next t).any fun k => !LuaKey.isFalse k

/-- If no key is `false`, the test finds out whether there is one. -/
theorem PairsOrder.testNext_eq_false_iff {K V : Type*} [DecidableEq K] [LuaKey K]
    (order : PairsOrder K V) {t : Table K V} (h : ∀ k ∈ t, LuaKey.isFalse k = false) :
    order.testNext t = false ↔ t.entries = [] := by
  rw [← order.next_eq_none_iff, testNext]
  cases hk : order.next t with
  | none => simp
  | some k => simp [h k (order.mem_of_next hk)]

/-- A key `false` that is met first hides the others. -/
theorem PairsOrder.testNext_startingWith {K V : Type*} [DecidableEq K] [LuaKey K] {t : Table K V}
    {k : K} (hmem : k ∈ t) (hk : LuaKey.isFalse k = true) :
    (startingWith k V).testNext t = false := by
  rw [testNext, next_startingWith hmem]
  simp [hk]

theorem PairsOrder.pairs_empty {K V : Type*} (order : PairsOrder K V) : order.pairs ∅ = [] :=
  (order.perm ∅).eq_nil

theorem PairsOrder.nodup_keys {K V : Type*} (order : PairsOrder K V) (t : Table K V) :
    ((order.pairs t).map Sigma.fst).Nodup :=
  ((order.perm t).map Sigma.fst).nodup_iff.mpr t.nodupKeys

end CodeTest
