import CodeTest.Foundations.Table
import Mathlib.Data.Multiset.UnionInter

/-!
# Lists as tables, and tables of counts

A list is the table of its elements at the keys from 1 on, and `pairs` may go through it in any
order. A table of counts stands for a multiset: `replicas` lists every key as often as its count
says.
-/

namespace CodeTest.Table

variable {V : Type*}

/-- The entries of a list, at the keys from `i` on. -/
def listEntries (l : List V) (i : ℕ) : List (Σ _ : ℕ, V) := l.zipIdx i |>.map fun v => ⟨v.2, v.1⟩

theorem keys_listEntries (l : List V) (i : ℕ) :
    (listEntries l i).map Sigma.fst = List.range' i l.length := by
  rw [listEntries, List.map_map, ← List.zipIdx_map_snd i l]
  rfl

/-- The table of a list. -/
def ofList (l : List V) : Table ℕ V where
  entries := listEntries l 1
  nodupKeys := by
    rw [List.NodupKeys, List.keys, keys_listEntries]
    exact List.nodup_range'

theorem mem_entries_ofList {l : List V} {i : ℕ} {v : V} :
    ⟨i, v⟩ ∈ (ofList l).entries ↔ 0 < i ∧ l[i - 1]? = some v := by
  simp only [ofList, listEntries, List.mem_map, Prod.exists, Sigma.mk.injEq, heq_eq_eq]
  constructor
  · rintro ⟨w, j, hmem, rfl, rfl⟩
    obtain ⟨hle, hget⟩ := List.mk_mem_zipIdx_iff_le_and_getElem?_sub.mp hmem
    exact ⟨hle, hget⟩
  · rintro ⟨hi, hget⟩
    exact ⟨v, i, List.mk_mem_zipIdx_iff_le_and_getElem?_sub.mpr ⟨hi, hget⟩, rfl, rfl⟩

/-- A traversal of a list meets its elements at their positions. -/
theorem mem_pairs_ofList (order : PairsOrder ℕ V) {l : List V} {i : ℕ} {v : V} :
    ⟨i, v⟩ ∈ order.pairs (ofList l) ↔ 0 < i ∧ l[i - 1]? = some v := by
  rw [(order.perm _).mem_iff, mem_entries_ofList]

/-- The values of a traversal of a list are its elements, in some order. -/
theorem values_ofList_perm (order : PairsOrder ℕ V) (l : List V) :
    ((order.pairs (ofList l)).map Sigma.snd).Perm l := by
  refine ((order.perm _).map Sigma.snd).trans (.of_eq ?_)
  show ((l.zipIdx 1).map _).map _ = l
  rw [List.map_map]
  exact List.zipIdx_map_fst 1 l

variable [DecidableEq V]

/-- A traversal has the values of the table. -/
theorem dlookup_pairs {W : Type*} (order : PairsOrder V W) (t : Table V W) (v : V) :
    (order.pairs t).dlookup v = t.lookup v :=
  List.perm_dlookup v (order.nodup_keys t) (order.perm t)

/-- Every key as often as its count says. -/
def replicas (counts : List (Σ _ : V, ℤ)) : List V :=
  counts.flatMap fun e => List.replicate e.2.toNat e.1

theorem count_replicas {counts : List (Σ _ : V, ℤ)} (h : counts.NodupKeys) (v : V) :
    (replicas counts).count v = ((counts.dlookup v).getD 0).toNat := by
  induction counts with
  | nil => rfl
  | cons e counts ih =>
    obtain ⟨k, n⟩ := e
    obtain ⟨hk, h⟩ := List.nodupKeys_cons.mp h
    rw [replicas, List.flatMap_cons, List.count_append, List.count_replicate]
    have hrest := ih h
    rw [replicas] at hrest
    rw [hrest]
    by_cases hkv : k = v
    · subst hkv
      rw [List.dlookup_cons_eq, List.dlookup_eq_none.mpr hk]
      simp
    · rw [List.dlookup_cons_ne _ _ (Ne.symm hkv)]
      simp [hkv]

end CodeTest.Table
