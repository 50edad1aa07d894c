import CodeTest.LuaTable.Offset

/-!
# Tables that form a tree

A memory is `Closed` when every table that is referred to is there, so the tables below a table are
finitely many. A table is `TreeShaped` when each of them stands at one place only and none has a
metatable.
-/

namespace CodeTest

open Places

namespace LuaHeap

variable {N : Type} [DecidableEq N] {heap : LuaHeap N} {p q root : Addr} {k : LuaValue N}

/-- A value of a table that is there is valid, and so is its key. -/
theorem valid_of_rawget (hclosed : heap.Closed) {v : LuaValue N} (h : heap.rawget p k = some v) :
    (heap.lookup p).isSome ∧ heap.Valid k ∧ heap.Valid v := by
  obtain ⟨t, ht, hv⟩ := Option.bind_eq_some_iff.mp h
  refine ⟨by rw [ht]; rfl, ?_⟩
  exact (hclosed.table ht).1 ⟨k, v⟩ (AList.mem_lookup_iff.mp hv)

theorem isSome_of_child (hclosed : heap.Closed) (h : heap.child p k = some q) :
    (heap.lookup q).isSome :=
  (valid_of_rawget hclosed (child_eq_some_iff.mp h)).2.2

theorem isSome_of_mem_below (hclosed : heap.Closed) (hroot : (heap.lookup root).isSome)
    (hp : p ∈ below heap.child root) : (heap.lookup p).isSome := by
  induction hp with
  | refl => exact hroot
  | tail _ hstep _ =>
    obtain ⟨k, hk⟩ := hstep
    exact isSome_of_child hclosed hk

/-- There are at most as many tables below a table as there are tables. -/
theorem finite_below (hclosed : heap.Closed) (hroot : (heap.lookup root).isSome) :
    (below heap.child root).Finite ∧ (below heap.child root).ncard ≤ heap.keys.length := by
  have hsub : below heap.child root ⊆ heap.keys.toFinset := by
    intro p hp
    have hthere := isSome_of_mem_below hclosed hroot hp
    rw [Finset.mem_coe, List.mem_toFinset]
    exact AList.mem_keys.mp (AList.lookup_isSome.mp hthere)
  refine ⟨(Finset.finite_toSet _).subset hsub, ?_⟩
  calc (below heap.child root).ncard
      ≤ (heap.keys.toFinset : Set Addr).ncard := Set.ncard_le_ncard hsub (Finset.finite_toSet _)
    _ = heap.keys.toFinset.card := Set.ncard_coe_finset _
    _ ≤ heap.keys.length := List.toFinset_card_le _

/-- The tables below a table, through values, are a tree, and none has a metatable. -/
structure TreeShaped (heap : LuaHeap N) (root : Addr) : Prop where
  there : (heap.lookup root).isSome
  bare : ∀ p ∈ below heap.child root, heap.Bare p
  tree : IsTree heap.child root

namespace TreeShaped

variable (h : heap.TreeShaped root)
include h

/-- The number of tables below a table is positive, and smaller for its sub-tables. -/
theorem ncard_below (hclosed : heap.Closed) (hp : p ∈ below heap.child root) :
    0 < (below heap.child p).ncard ∧ ∀ k q, heap.child p k = some q →
      (below heap.child q).ncard < (below heap.child p).ncard := by
  have hfinite := (finite_below hclosed h.there).1
  refine ⟨?_, fun k q hq => h.tree.ncard_below_lt hfinite hp hq⟩
  exact (Set.ncard_pos (hfinite.subset (below_subset hp))).mpr ⟨p, mem_below_self p⟩

end TreeShaped

/-! ## Small trees -/

section Small

variable {t : LuaTable N}

/-- A table without sub-tables. -/
theorem child_of_flat (ht : heap.lookup p = some t)
    (hflat : ∀ e ∈ t.entries.entries, e.2.table? = none) (k : LuaValue N) :
    heap.child p k = none := by
  refine child_eq_none (fun t' ht' => ?_) k
  rw [ht, Option.mem_def, Option.some_inj] at ht'
  exact ht' ▸ hflat

/-- A table whose only value is a table. -/
theorem child_of_leaf {m : Option Addr}
    (hp : heap.lookup p = some ⟨AList.insert k (.table q) ∅, m⟩) (k' : LuaValue N) (q' : Addr) :
    heap.child p k' = some q' ↔ k' = k ∧ q' = q := by
  rw [child_eq_some_iff, rawget, hp, Option.bind_some, Table.lookup_insert_eq]
  split_ifs with hk
  · simp [hk, eq_comm]
  · simp [hk]

omit [DecidableEq N] in
theorem bare_of_lookup (ht : heap.lookup p = some t) (hbare : t.metatable = none) :
    heap.Bare p := by
  intro t' ht'
  rw [ht, Option.mem_def, Option.some_inj] at ht'
  exact ht' ▸ hbare

/-- A table without sub-tables and without metatable. -/
theorem treeShaped_of_flat (ht : heap.lookup p = some t)
    (hflat : ∀ e ∈ t.entries.entries, e.2.table? = none) (hbare : t.metatable = none) :
    heap.TreeShaped p := by
  have hchild := child_of_flat ht hflat
  refine ⟨by rw [ht]; rfl, ?_, isTree_of_forall_none hchild⟩
  rw [below_of_forall_none hchild]
  rintro _ rfl
  exact bare_of_lookup ht hbare

/-- A table without metatable whose only value is a table without sub-tables and metatable. -/
theorem treeShaped_of_leaf (hp : heap.lookup p = some ⟨AList.insert k (.table q) ∅, none⟩)
    (hq : heap.lookup q = some t) (hflat : ∀ e ∈ t.entries.entries, e.2.table? = none)
    (hbare : t.metatable = none) (hne : p ≠ q) : heap.TreeShaped p := by
  have hchild := child_of_leaf hp
  have hleaf := child_of_flat hq hflat
  refine ⟨by rw [hp]; rfl, ?_, isTree_of_leaf hchild hleaf hne⟩
  rw [below_of_leaf hchild hleaf]
  rintro r (rfl | rfl)
  · exact bare_of_lookup hp rfl
  · exact bare_of_lookup hq hbare

end Small

end LuaHeap

end CodeTest
