import CodeTest.Foundations.FirstOccurrences
import CodeTest.Foundations.ListTable
import CodeTest.Util.Bisection
import CodeTest.Util.PrintTable

/-!
# Removing duplicates in place

`tableUnionEqualsTable` of `util.lua`. The positions of the elements that are equal to an earlier
one are collected in a table, `tRemoveIdDict`, from where they are removed, the last one first, so
that the positions still to be removed do not move. What is left are the elements without an equal
one before them.

Each element that is compared is also printed, and `printTable` may raise an error, which ends the
call before anything is removed. So the duplicates are removed exactly when all elements but the
first are printed (`tableUnionEqualsTable_iff`).

The operator `==` is a parameter, about which nothing is assumed: NaN is not equal to itself, and
tables may have a metamethod. So is `printTable`, since a metamethod of an element may raise an
error as well; for elements without one it is `PrintTable.printTable`. The elements are not nil.
-/

namespace CodeTest.Duplicates

open Bisection GetTop Text

variable {α : Type} (eq : α → α → Bool) (printTable : Option α → Option LuaString)

/-- The body of the inner loop of the first part. -/
def markOne (tFinalList : List α) (v : α) (i : ℕ) (tRemoveIdDict : Table ℕ ℕ) :
    Option (Table ℕ ℕ) := do
  let tEntity := at? tFinalList i
  let _ ← printTable tEntity
  if tEntity.any (eq v) then
    if tRemoveIdDict.lookup i = none then return tRemoveIdDict.insert i i else return tRemoveIdDict
  else
    return tRemoveIdDict

/-- The inner loop of the first part, over `left` positions from `i` on. -/
def markLoop (tFinalList : List α) (v : α) : ℕ → ℕ → Table ℕ ℕ → Option (Table ℕ ℕ)
  | 0, _, tRemoveIdDict => some tRemoveIdDict
  | left + 1, i, tRemoveIdDict => do
    let tRemoveIdDict ← markOne eq printTable tFinalList v i tRemoveIdDict
    markLoop tFinalList v left (i + 1) tRemoveIdDict

/-- The first part, by a traversal of the list: the positions to be removed. -/
def markAll (tFinalList : List α) : List (Σ _ : ℕ, α) → Table ℕ ℕ → Option (Table ℕ ℕ)
  | [], tRemoveIdDict => some tRemoveIdDict
  | ⟨nIndex, v⟩ :: entries, tRemoveIdDict =>
    let nListCount := tFinalList.length
    let nextIndex := nIndex + 1
    if nextIndex ≤ nListCount then do
      let tRemoveIdDict ← markLoop eq printTable tFinalList v (nListCount + 1 - nextIndex)
        nextIndex tRemoveIdDict
      markAll tFinalList entries tRemoveIdDict
    else
      markAll tFinalList entries tRemoveIdDict

/-- The inner loop of the second part, over the entries of `tRemoveIdDict`. -/
def removeEntries (nIndex : ℕ) : List (Σ _ : ℕ, ℕ) → List α → List α
  | [], tFinalList => tFinalList
  | ⟨_, v⟩ :: entries, tFinalList =>
    removeEntries nIndex entries (if nIndex = v then tFinalList.eraseIdx (v - 1) else tFinalList)

/-- The second part, from the position `nIndex` down. -/
def removeLoop (entries : List (Σ _ : ℕ, ℕ)) : ℕ → List α → List α
  | 0, tFinalList => tFinalList
  | nIndex + 1, tFinalList =>
    removeLoop entries nIndex (removeEntries (nIndex + 1) entries tFinalList)

/-- `tableUnionEqualsTable(tFinalList)`: what is left in `tFinalList`, by traversals of the list and
of `tRemoveIdDict`. Nothing is removed when the call raises an error. -/
def tableUnionEqualsTable (order : PairsOrder ℕ α) (orderDict : PairsOrder ℕ ℕ)
    (tFinalList : List α) : Option (List α) := do
  let tRemoveIdDict ← markAll eq printTable tFinalList (order.pairs (.ofList tFinalList)) ∅
  return removeLoop (orderDict.pairs tRemoveIdDict) tFinalList.length tFinalList

/-- The list `t` is left of `l`: the elements without an equal one before them, in the order of `l`.
None of them is equal to an earlier one, and if the equality is transitive every element of `l` is
left or equal to one that is. -/
structure Deduplicated (l t : List α) : Prop where
  firsts : t = firsts eq [] l
  sublist : t.Sublist l
  distinct : t.Pairwise fun a b => ¬ eq a b
  complete : (∀ a b c, eq a b → eq b c → eq a c) → ∀ x ∈ l, x ∈ t ∨ ∃ y ∈ t, eq y x

variable {l : List α} {dict : Table ℕ ℕ} {entries : List (Σ _ : ℕ, ℕ)} {k n : ℕ}

/-! ## The positions to be removed -/

/-- Every entry has its key as its value. -/
def SelfKeyed (entries : List (Σ _ : ℕ, ℕ)) : Prop := ∀ e ∈ entries, e.2 = e.1

theorem selfKeyed_iff : SelfKeyed dict.entries ↔ ∀ k w, dict.lookup k = some w → w = k := by
  constructor
  · exact fun h k w hw => h ⟨k, w⟩ (AList.mem_lookup_iff.mp hw)
  · rintro h ⟨k, w⟩ hmem
    exact h k w (AList.mem_lookup_iff.mpr hmem)

theorem markOne_spec (l : List α) (v : α) (i : ℕ) {dict' : Table ℕ ℕ}
    (hmark : markOne eq printTable l v i dict = some dict') (h : SelfKeyed dict.entries) :
    SelfKeyed dict'.entries ∧
      ∀ k, k ∈ dict' ↔ k ∈ dict ∨ k = i ∧ (at? l k).any (eq v) := by
  obtain ⟨-, -, hmark⟩ := Option.bind_eq_some_iff.mp hmark
  split_ifs at hmark with hv hfree
  all_goals obtain rfl := Option.some.inj hmark
  · constructor
    · rw [selfKeyed_iff] at h ⊢
      intro k w hw
      rw [Table.lookup_insert_eq] at hw
      split_ifs at hw with hk
      · rw [hk]
        exact (Option.some.inj hw).symm
      · exact h k w hw
    · intro k
      rw [AList.mem_insert, or_comm]
      exact or_congr_right ⟨fun hk => ⟨hk, hk ▸ hv⟩, And.left⟩
  · refine ⟨h, fun k => (or_iff_left_of_imp ?_).symm⟩
    rintro ⟨rfl, -⟩
    exact AList.lookup_isSome.mp (Option.isSome_iff_ne_none.mpr hfree)
  · refine ⟨h, fun k => (or_iff_left ?_).symm⟩
    rintro ⟨rfl, hk⟩
    exact hv hk

theorem markLoop_spec (l : List α) (v : α) (n i : ℕ) {dict' : Table ℕ ℕ}
    (hmark : markLoop eq printTable l v n i dict = some dict') (h : SelfKeyed dict.entries) :
    SelfKeyed dict'.entries ∧
      ∀ k, k ∈ dict' ↔ k ∈ dict ∨ (i ≤ k ∧ k < i + n) ∧ (at? l k).any (eq v) := by
  induction n generalizing i dict with
  | zero =>
    obtain rfl := Option.some.inj hmark
    exact ⟨h, fun k => (or_iff_left fun hk => by omega).symm⟩
  | succ n ih =>
    obtain ⟨dict₁, hmark₁, hmark⟩ := Option.bind_eq_some_iff.mp hmark
    obtain ⟨hself, hone⟩ := markOne_spec eq printTable l v i hmark₁ h
    obtain ⟨hself', hrest⟩ := ih (i + 1) hmark hself
    refine ⟨hself', fun k => ?_⟩
    rw [hrest, hone, or_assoc, ← or_and_right]
    refine or_congr_right (and_congr_left fun _ => ?_)
    omega

/-- The positions collected: those with an element that is equal to one before it. -/
theorem markAll_spec (l : List α) (es : List (Σ _ : ℕ, α)) {dict' : Table ℕ ℕ}
    (hmark : markAll eq printTable l es dict = some dict') (h : SelfKeyed dict.entries) :
    SelfKeyed dict'.entries ∧
      ∀ k, k ∈ dict' ↔
        k ∈ dict ∨ ∃ e ∈ es, (e.1 < k ∧ k ≤ l.length) ∧ (at? l k).any (eq e.2) := by
  induction es generalizing dict with
  | nil =>
    obtain rfl := Option.some.inj hmark
    exact ⟨h, fun k => by simp⟩
  | cons e es ih =>
    obtain ⟨nIndex, v⟩ := e
    rw [markAll] at hmark
    split_ifs at hmark with hnext
    · obtain ⟨dict₁, hmark₁, hmark⟩ := Option.bind_eq_some_iff.mp hmark
      obtain ⟨hself, hone⟩ := markLoop_spec eq printTable l v (l.length + 1 - (nIndex + 1))
        (nIndex + 1) hmark₁ h
      obtain ⟨hself', hrest⟩ := ih hmark hself
      refine ⟨hself', fun k => ?_⟩
      rw [hrest, hone, List.exists_mem_cons_iff, or_assoc]
      refine or_congr_right (or_congr_left (and_congr_left fun _ => ?_))
      show (nIndex + 1 ≤ k ∧ k < nIndex + 1 + (l.length + 1 - (nIndex + 1))) ↔
        nIndex < k ∧ k ≤ l.length
      omega
    · obtain ⟨hself', hrest⟩ := ih hmark h
      refine ⟨hself', fun k => ?_⟩
      rw [hrest, List.exists_mem_cons_iff]
      refine or_congr_right (or_iff_right ?_).symm
      rintro ⟨⟨hk, hkn⟩, -⟩
      exact hnext (Nat.le_trans hk hkn)

/-- In the list itself, the position behind `p` is collected when the element there is equal to one
of `p`. -/
theorem mem_markAll (order : PairsOrder ℕ α) {p q : List α} {x : α} (hl : l = p ++ x :: q)
    (hmark : markAll eq printTable l (order.pairs (.ofList l)) ∅ = some dict) :
    p.length + 1 ∈ dict ↔ p.any (eq · x) := by
  have hself : SelfKeyed (∅ : Table ℕ ℕ).entries := fun e he => absurd he List.not_mem_nil
  have hat : at? l (p.length + 1) = some x := by simp [at?, hl]
  have hget : ∀ {j : ℕ}, j < p.length → l[j]? = p[j]? := fun hj => by
    rw [hl, List.getElem?_append_left hj]
  rw [(markAll_spec eq printTable l _ hmark hself).2, hat, List.any_eq_true]
  constructor
  · rintro (hmem | ⟨⟨j, v⟩, hmem, ⟨hj, -⟩, hv⟩)
    · exact absurd hmem (AList.notMem_empty _)
    · obtain ⟨hpos, hv'⟩ := (Table.mem_pairs_ofList order).mp hmem
      rw [hget (by simp only at hj; omega)] at hv'
      exact ⟨v, List.mem_of_getElem? hv', hv⟩
  · rintro ⟨v, hmem, hv⟩
    obtain ⟨j, hj⟩ := List.mem_iff_getElem?.mp hmem
    have hlt := (List.getElem?_eq_some_iff.mp hj).1
    refine .inr ⟨⟨j + 1, v⟩, (Table.mem_pairs_ofList order).mpr ⟨Nat.succ_pos j, ?_⟩, ⟨?_, ?_⟩, hv⟩
    · rw [Nat.add_sub_cancel, hget hlt, hj]
    · exact Nat.succ_lt_succ hlt
    · rw [hl, List.length_append, List.length_cons]
      omega

/-! ## What is printed -/

theorem isSome_markOne_iff (l : List α) (v : α) (i : ℕ) (dict : Table ℕ ℕ) :
    (markOne eq printTable l v i dict).isSome ↔ (printTable (at? l i)).isSome := by
  unfold markOne
  dsimp only
  cases printTable (at? l i) with
  | none => rfl
  | some text =>
    simp only [bind, Option.bind]
    split_ifs <;> rfl

theorem isSome_markLoop_iff (l : List α) (v : α) (n i : ℕ) (dict : Table ℕ ℕ) :
    (markLoop eq printTable l v n i dict).isSome ↔
      ∀ k, i ≤ k → k < i + n → (printTable (at? l k)).isSome := by
  induction n generalizing i dict with
  | zero =>
    refine iff_of_true rfl fun k hk hk' => ?_
    omega
  | succ n ih =>
    have hsplit : (∀ k, i ≤ k → k < i + (n + 1) → (printTable (at? l k)).isSome) ↔
        (printTable (at? l i)).isSome ∧
          ∀ k, i + 1 ≤ k → k < i + 1 + n → (printTable (at? l k)).isSome := by
      constructor
      · exact fun h => ⟨h i le_rfl (by omega), fun k hk hk' => h k (by omega) (by omega)⟩
      · rintro ⟨hi, hrest⟩ k hk hk'
        rcases hk.eq_or_lt with rfl | hlt
        · exact hi
        · exact hrest k hlt (by omega)
    rw [hsplit, ← isSome_markOne_iff eq printTable l v i dict, markLoop]
    cases markOne eq printTable l v i dict with
    | none => simp
    | some dict₁ =>
      simp only [Option.isSome_some, true_and]
      exact ih (i + 1) dict₁

/-- All elements behind the positions of the traversal are printed. -/
theorem isSome_markAll_iff (l : List α) (es : List (Σ _ : ℕ, α)) (dict : Table ℕ ℕ) :
    (markAll eq printTable l es dict).isSome ↔
      ∀ e ∈ es, ∀ k, e.1 < k → k ≤ l.length → (printTable (at? l k)).isSome := by
  induction es generalizing dict with
  | nil => exact iff_of_true rfl (by simp)
  | cons e es ih =>
    obtain ⟨nIndex, v⟩ := e
    rw [List.forall_mem_cons, markAll]
    dsimp only
    split_ifs with hnext
    · have hloop : (∀ k, nIndex < k → k ≤ l.length → (printTable (at? l k)).isSome) ↔
          (markLoop eq printTable l v (l.length + 1 - (nIndex + 1)) (nIndex + 1) dict).isSome := by
        rw [isSome_markLoop_iff]
        refine forall₂_congr fun k hk => imp_congr_left ?_
        omega
      rw [hloop]
      cases markLoop eq printTable l v (l.length + 1 - (nIndex + 1)) (nIndex + 1) dict with
      | none => simp
      | some dict₁ =>
        simp only [Option.isSome_some, true_and]
        exact ih dict₁
    · rw [ih, and_iff_right]
      intro k hk hk'
      omega

/-- In the list itself, these are all elements but the first. -/
theorem isSome_markAll_list_iff (order : PairsOrder ℕ α) (l : List α) :
    (markAll eq printTable l (order.pairs (.ofList l)) ∅).isSome ↔
      ∀ x ∈ l.tail, (printTable (some x)).isSome := by
  rw [isSome_markAll_iff]
  constructor
  · intro h x hx
    obtain ⟨j, hj⟩ := List.mem_iff_getElem?.mp hx
    rw [List.getElem?_tail] at hj
    have hlt := (List.getElem?_eq_some_iff.mp hj).1
    obtain ⟨v, hv⟩ : ∃ v, l[0]? = some v := ⟨_, List.getElem?_eq_getElem (by omega)⟩
    have hat : at? l (j + 2) = some x := by simpa [at?] using hj
    rw [← hat]
    refine h ⟨1, v⟩ ((Table.mem_pairs_ofList order).mpr ⟨Nat.one_pos, hv⟩) (j + 2) ?_ hlt
    show 1 < j + 2
    omega
  · rintro h ⟨i, v⟩ hmem k hk hlength
    obtain ⟨hpos, -⟩ := (Table.mem_pairs_ofList order).mp hmem
    obtain ⟨j, rfl⟩ : ∃ j, k = j + 2 := ⟨k - 2, by simp only at hk; omega⟩
    obtain ⟨x, hx⟩ : ∃ x, l[j + 1]? = some x := ⟨_, List.getElem?_eq_getElem hlength⟩
    have hat : at? l (j + 2) = some x := by simpa [at?] using hx
    rw [hat]
    refine h x (List.mem_iff_getElem?.mpr ⟨j, ?_⟩)
    rw [List.getElem?_tail, hx]

/-! ## The removal -/

/-- At most one entry is for the position. -/
theorem removeEntries_eq (h : SelfKeyed entries) (hnodup : entries.NodupKeys) (n : ℕ)
    (t : List α) :
    removeEntries n entries t = if n ∈ entries.keys then t.eraseIdx (n - 1) else t := by
  induction entries generalizing t with
  | nil => rfl
  | cons e entries ih =>
    obtain ⟨k, w⟩ := e
    obtain rfl : w = k := h _ (.head _)
    obtain ⟨hk, hnodup⟩ := List.nodupKeys_cons.mp hnodup
    rw [removeEntries, ih (fun e he => h e (.tail _ he)) hnodup]
    by_cases hn : n = w
    · subst hn
      rw [if_neg hk, if_pos rfl, if_pos (show n ∈ List.keys (⟨n, n⟩ :: entries) from .head _)]
    · have hkeys : n ∈ List.keys (⟨w, w⟩ :: entries) ↔ n ∈ entries.keys :=
        List.mem_cons.trans (or_iff_right hn)
      simp only [hn, hkeys, if_false]

/-- The positions of `s` are gone through from the last one down, and what is behind stays. -/
theorem removeLoop_append (h : SelfKeyed entries) (hnodup : entries.NodupKeys) (s r : List α)
    (hmem : ∀ p x q, s = p ++ x :: q → (p.length + 1 ∈ entries.keys ↔ p.any (eq · x))) :
    removeLoop entries s.length (s ++ r) = firsts eq [] s ++ r := by
  induction s using List.reverseRecOn generalizing r with
  | nil => rfl
  | append_singleton s x ih =>
    have hrest := ih (r := r) fun p y q hs => hmem p y (q ++ [x]) (by rw [hs]; simp)
    have hlast := hmem s x [] rfl
    rw [List.length_append, List.length_singleton, removeLoop, removeEntries_eq h hnodup,
      Nat.add_sub_cancel, firsts_append, List.nil_append]
    by_cases hdup : s.length + 1 ∈ entries.keys
    · rw [if_pos hdup, if_pos (hlast.mp hdup), List.append_nil, ← hrest, List.append_assoc,
        List.eraseIdx_append_of_length_le (Nat.le_refl _), Nat.sub_self]
      rfl
    · rw [if_neg hdup, if_neg (hlast.not.mp hdup), List.append_assoc, List.append_assoc]
      exact ih (r := [x] ++ r) fun p y q hs => hmem p y (q ++ [x]) (by rw [hs]; simp)

/-- **When `tableUnionEqualsTable` removes the later duplicates.** For every list and every
equality, and whatever the orders of the traversals: the call returns, and the first occurrences of
the elements are left in the list, if and only if all elements but the first are printed. -/
theorem tableUnionEqualsTable_iff (order : PairsOrder ℕ α) (orderDict : PairsOrder ℕ ℕ)
    (l : List α) :
    (∃ t, tableUnionEqualsTable eq printTable order orderDict l = some t ∧ Deduplicated eq l t) ↔
      ∀ x ∈ l.tail, (printTable (some x)).isSome := by
  rw [← isSome_markAll_list_iff eq printTable order]
  constructor
  · rintro ⟨t, hcall, -⟩
    obtain ⟨dict, hmark, -⟩ := Option.bind_eq_some_iff.mp hcall
    rw [hmark]
    rfl
  · intro h
    obtain ⟨dict, hmark⟩ := Option.isSome_iff_exists.mp h
    have hempty : SelfKeyed (∅ : Table ℕ ℕ).entries := fun e he => absurd he List.not_mem_nil
    have hself := (markAll_spec eq printTable l _ hmark hempty).1
    have hperm := orderDict.perm dict
    have hrun := removeLoop_append eq (fun e he => hself e (hperm.mem_iff.mp he))
      (orderDict.nodup_keys _) l [] fun p x q hl => by
        rw [← mem_markAll eq printTable order hl hmark]
        exact Table.mem_keys_pairs orderDict _
    simp only [List.append_nil] at hrun
    have hcall : tableUnionEqualsTable eq printTable order orderDict l =
        some (firsts eq [] l) := by
      rw [tableUnionEqualsTable, hmark, ← hrun]
      rfl
    refine ⟨_, hcall, rfl, firsts_sublist [] l, firsts_pairwise [] l, fun htrans x hx => ?_⟩
    have hmem : x ∈ firsts eq [] l ∨ ∃ y ∈ [] ++ firsts eq [] l, eq y x :=
      mem_firsts_or htrans hx
    simpa using hmem

/-- Two elements that occur three times each. -/
example : tableUnionEqualsTable (· == ·) (fun _ => some []) (.entries ℕ ℕ) (.entries ℕ ℕ)
    [5, 8, 5, 5, 8, 1, 8] = some [5, 8, 1] := by decide

/-- The list `{5, {[math.huge] = 1, [1] = 2}, 5}`: to print the table, `inf` is compared with `1`,
and nothing is removed. -/
theorem duplicates_left :
    let mem : Memory (PrintTable.PlainTable Unit) := AList.insert 1 (AList.insert
      (.number (.float ())) (.number (.integer 1)) (AList.insert
      (.number (.integer 1)) (.number (.integer 2)) ∅)) ∅
    let l : List (PrintTable.Value Unit) := [.number (.integer 5), .table 1, .number (.integer 5)]
    ¬ ∃ t, tableUnionEqualsTable (· == ·) (PrintTable.printTable .simple mem 2) (.entries _ _)
      (.entries _ _) l = some t ∧ Deduplicated (· == ·) l t := by
  intro mem l
  have hcall : tableUnionEqualsTable (· == ·) (PrintTable.printTable .simple mem 2) (.entries _ _)
      (.entries _ _) l = none := by decide +kernel
  rintro ⟨t, ht, -⟩
  rw [hcall] at ht
  cases ht

end CodeTest.Duplicates
