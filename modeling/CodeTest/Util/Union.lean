import CodeTest.Foundations.ListTable
import CodeTest.LuaTable.Heap

/-!
# Lists as multisets

`union` and `isArraySubset` of `util.lua`. The first gives the common elements of two lists, with
their multiplicities. It counts up the elements of the first list, and counts down from there along
the second. The second asks whether a list is contained in another one, by counts that start from 0
at the first occurrence. Both compute what they stand for on the multisets of the lists: the
intersection (`union_spec`) and the order (`isArraySubset_iff`).

The elements are keys of tables, so values of the same key are taken to be the same, and NaN, which
is no key, cannot be an element: the assignment raises an error. The value `nil` is not in a list.
-/

namespace CodeTest.ListSets

variable {V W : Type} [DecidableEq V] (isNaN : V → Bool)

/-- The assignment `t[k] = w`. -/
def setField (t : Table V W) (k : V) (w : W) : Except LuaError (Table V W) :=
  if isNaN k then .error .indexNaN else .ok (t.insert k w)

/-- The first loop of `union`: what it leaves in `map`. -/
def countUp : List V → Table V ℤ → Except LuaError (Table V ℤ)
  | [], map => .ok map
  | v :: vs, map => do
    let num := (map.lookup v).getD 0
    let map ← setField isNaN map v (num + 1)
    countUp vs map

/-- The second loop of `union`: what it leaves in `tab`. -/
def countDown : List V → Table V ℤ → Table V ℤ → Except LuaError (Table V ℤ)
  | [], _, tab => .ok tab
  | v :: vs, map, tab => do
    let left := (map.lookup v).getD 0 - 1
    let map ← setField isNaN map v left
    let num := (tab.lookup v).getD 0
    let tab ← setField isNaN tab v (if left ≥ 0 then num + 1 else num)
    countDown vs map tab

/-- `union(tb1, tb2)`, by traversals of the two lists and of `tab`. A table that is not there is
`none`. -/
def union (order₁ order₂ : PairsOrder ℕ V) (orderTab : PairsOrder V ℤ) :
    Option (List V) → Option (List V) → Except LuaError (List V)
  | some tb1, some tb2 => do
    let map ← countUp isNaN ((order₁.pairs (.ofList tb1)).map Sigma.snd) ∅
    let tab ← countDown isNaN ((order₂.pairs (.ofList tb2)).map Sigma.snd) map ∅
    return Table.replicas (orderTab.pairs tab)
  | _, _ => .ok []

/-- The loop of `set`, where `mark` says what the entry of a value becomes when it occurs. -/
def setLoop (mark : Option W → W) : List V → Table V W → Except LuaError (Table V W)
  | [], set => .ok set
  | val :: vals, set => do
    let set ← setField isNaN set val (mark (set.lookup val))
    setLoop mark vals set

/-- `set(tb, true)`: every entry is `true`. -/
def mergedSet (tb : List V) : Except LuaError (Table V Unit) := setLoop isNaN (fun _ => ()) tb ∅

/-- `set(tb, false)`: an entry is by how much the value occurs more than once. -/
def countedSet (tb : List V) : Except LuaError (Table V ℤ) :=
  setLoop isNaN (fun n => n.elim 0 (· + 1)) tb ∅

/-- `isArraySubset(tb1, tb2, bMergeRepeat)`, by a traversal of the second set. -/
def isArraySubset (orderMerged : PairsOrder V Unit) (orderCounted : PairsOrder V ℤ)
    (tb1 tb2 : List V) (bMergeRepeat : Bool) : Except LuaError Bool :=
  if bMergeRepeat then do
    let set1 ← mergedSet isNaN tb1
    let set2 ← mergedSet isNaN tb2
    return (orderMerged.pairs set2).all fun e => (set1.lookup e.1).isSome
  else do
    let set1 ← countedSet isNaN tb1
    let set2 ← countedSet isNaN tb2
    return (orderCounted.pairs set2).all fun e =>
      match set1.lookup e.1 with
      | none => false
      | some n => !decide (e.2 > n)

variable {isNaN} {a b vs : List V} {orderTab : PairsOrder V ℤ} {orderMerged : PairsOrder V Unit}

/-! ## The counts -/

/-- The number that a table has for a key. -/
def numAt (t : Table V ℤ) (v : V) : ℤ := (t.lookup v).getD 0

theorem numAt_insert (t : Table V ℤ) (k v : V) (n : ℤ) :
    numAt (t.insert k n) v = if v = k then n else numAt t v := by
  rw [numAt, Table.lookup_insert_eq]
  split_ifs <;> rfl

theorem setField_ok {t : Table V W} {k : V} (h : ¬ isNaN k) (w : W) :
    setField isNaN t k w = .ok (t.insert k w) :=
  if_neg h

theorem countUp_spec (h : ∀ v ∈ vs, ¬ isNaN v) (map : Table V ℤ) :
    ∃ map', countUp isNaN vs map = .ok map' ∧ ∀ v, numAt map' v = numAt map v + vs.count v := by
  induction vs generalizing map with
  | nil => exact ⟨map, rfl, fun v => by simp⟩
  | cons u vs ih =>
    obtain ⟨map', hmap', hnum⟩ := ih (fun v hv => h v (.tail _ hv))
      (map.insert u ((map.lookup u).getD 0 + 1))
    refine ⟨map', ?_, fun v => ?_⟩
    · rw [countUp, setField_ok (h u (.head _))]
      exact hmap'
    · rw [hnum, numAt_insert, List.count_cons]
      by_cases huv : u = v
      · subst huv
        simp [numAt]
        omega
      · simp [huv, Ne.symm huv]

/-- Every key gains as often as it occurs, up to the number that is left of it. -/
theorem countDown_spec (h : ∀ v ∈ vs, ¬ isNaN v) (map tab : Table V ℤ) :
    ∃ tab', countDown isNaN vs map tab = .ok tab' ∧
      ∀ v, numAt tab' v = numAt tab v + min (vs.count v : ℤ) (max (numAt map v) 0) := by
  induction vs generalizing map tab with
  | nil => exact ⟨tab, rfl, fun v => by simp⟩
  | cons u vs ih =>
    obtain ⟨tab', htab', hnum⟩ := ih (fun v hv => h v (.tail _ hv))
      (map.insert u (numAt map u - 1))
      (tab.insert u (if numAt map u - 1 ≥ 0 then numAt tab u + 1 else numAt tab u))
    refine ⟨tab', ?_, fun v => ?_⟩
    · rw [countDown, setField_ok (h u (.head _))]
      show (setField isNaN tab u _ >>= _) = _
      rw [setField_ok (h u (.head _))]
      exact htab'
    · rw [hnum, numAt_insert, numAt_insert, List.count_cons]
      by_cases huv : u = v
      · subst huv
        simp only [if_true, beq_self_eq_true]
        push_cast
        split_ifs <;> omega
      · simp [huv, Ne.symm huv]

/-! ## The intersection -/

/-- Without NaN, `union` gives a list of the intersection of the two multisets. -/
theorem union_eq (order₁ order₂ : PairsOrder ℕ V) (orderTab : PairsOrder V ℤ)
    (ha : ∀ v ∈ a, ¬ isNaN v) (hb : ∀ v ∈ b, ¬ isNaN v) :
    ∃ u, union isNaN order₁ order₂ orderTab (some a) (some b) = .ok u ∧
      (u : Multiset V) = (a : Multiset V) ∩ b := by
  have hpermA := Table.values_ofList_perm order₁ a
  have hpermB := Table.values_ofList_perm order₂ b
  obtain ⟨map, hmap, hup⟩ := countUp_spec (fun v hv => ha v (hpermA.mem_iff.mp hv)) ∅
  obtain ⟨tab, htab, hdown⟩ := countDown_spec (fun v hv => hb v (hpermB.mem_iff.mp hv)) map ∅
  refine ⟨Table.replicas (orderTab.pairs tab), ?_, ?_⟩
  · rw [union, hmap]
    show (countDown isNaN _ map ∅ >>= _) = _
    rw [htab]
    rfl
  · ext v
    have hempty : numAt (∅ : Table V ℤ) v = 0 := rfl
    have hcount : numAt tab v = min (b.count v : ℤ) (a.count v) := by
      rw [hdown, hup, hempty, hpermA.count_eq, hpermB.count_eq]
      omega
    rw [Multiset.coe_count, Multiset.count_inter, Multiset.coe_count, Multiset.coe_count,
      Table.count_replicas (orderTab.nodup_keys tab), Table.dlookup_pairs]
    show (numAt tab v).toNat = _
    rw [hcount]
    omega

/-! ## The order -/

/-- After the loop, the mark of a value has been made as often as the value occurs. -/
theorem setLoop_spec (mark : Option W → W) (h : ∀ v ∈ vs, ¬ isNaN v) (set : Table V W) :
    ∃ set', setLoop isNaN mark vs set = .ok set' ∧
      ∀ v, set'.lookup v = (fun o => some (mark o))^[vs.count v] (set.lookup v) := by
  induction vs generalizing set with
  | nil => exact ⟨set, rfl, fun v => rfl⟩
  | cons u vs ih =>
    obtain ⟨set', hset', hmark⟩ := ih (fun v hv => h v (.tail _ hv))
      (set.insert u (mark (set.lookup u)))
    refine ⟨set', ?_, fun v => ?_⟩
    · rw [setLoop, setField_ok (h u (.head _))]
      exact hset'
    · rw [hmark, Table.lookup_insert_eq, List.count_cons]
      by_cases huv : u = v
      · subst huv
        rw [if_pos rfl, if_pos (beq_self_eq_true u), Function.iterate_succ_apply]
      · rw [if_neg (Ne.symm huv), if_neg (by simpa using huv), Nat.add_zero]

/-- The loop raises an error at NaN. -/
theorem not_isNaN_of_setLoop {mark : Option W → W} {set set' : Table V W}
    (h : setLoop isNaN mark vs set = .ok set') : ∀ v ∈ vs, ¬ isNaN v := by
  induction vs generalizing set with
  | nil => exact fun v hv => absurd hv List.not_mem_nil
  | cons u vs ih =>
    rw [setLoop, setField] at h
    split_ifs at h with hu
    · cases h
    · intro v hv
      rcases List.mem_cons.mp hv with rfl | hv
      · exact hu
      · exact ih h v hv

theorem iterate_counted (n : ℕ) :
    (fun o : Option ℤ => some (o.elim 0 (· + 1)))^[n] none =
      if n = 0 then none else some ((n : ℤ) - 1) := by
  induction n with
  | zero => rfl
  | succ n ih =>
    rw [Function.iterate_succ_apply', ih, if_neg (Nat.succ_ne_zero n)]
    split_ifs with hn
    · simp [hn]
    · simp

theorem countedSet_spec (h : ∀ v ∈ vs, ¬ isNaN v) :
    ∃ set, countedSet isNaN vs = .ok set ∧
      ∀ v, set.lookup v = if vs.count v = 0 then none else some ((vs.count v : ℤ) - 1) := by
  obtain ⟨set, hset, hmark⟩ := setLoop_spec (fun n : Option ℤ => n.elim 0 (· + 1)) h ∅
  exact ⟨set, hset, fun v => (hmark v).trans (iterate_counted _)⟩

theorem mergedSet_spec (h : ∀ v ∈ vs, ¬ isNaN v) :
    ∃ set, mergedSet isNaN vs = .ok set ∧ ∀ v, (set.lookup v).isSome ↔ v ∈ vs := by
  obtain ⟨set, hset, hmark⟩ := setLoop_spec (fun _ : Option Unit => ()) h ∅
  refine ⟨set, hset, fun v => ?_⟩
  rw [hmark, ← List.count_pos_iff]
  cases vs.count v with
  | zero => simp
  | succ n => simp [Function.iterate_succ_apply']

/-- The tests of the loop of `isArraySubset` without merging compare the counts. -/
theorem all_counted_iff (orderTab : PairsOrder V ℤ) {set1 set2 : Table V ℤ}
    (h1 : ∀ v, set1.lookup v = if a.count v = 0 then none else some ((a.count v : ℤ) - 1))
    (h2 : ∀ v, set2.lookup v = if b.count v = 0 then none else some ((b.count v : ℤ) - 1)) :
    ((orderTab.pairs set2).all fun e =>
        match set1.lookup e.1 with
        | none => false
        | some n => !decide (e.2 > n)) = true ↔ (b : Multiset V) ≤ a := by
  rw [List.all_eq_true, Multiset.le_iff_count]
  constructor
  · intro hall v
    rw [Multiset.coe_count, Multiset.coe_count]
    by_cases hv : b.count v = 0
    · omega
    · have htest := hall ⟨v, (b.count v : ℤ) - 1⟩
        ((Table.mem_pairs orderTab set2).mpr (by rw [h2, if_neg hv]))
      simp only [h1] at htest
      split_ifs at htest with hav
      simp only [Bool.not_eq_true', decide_eq_false_iff_not] at htest
      omega
  · rintro hle ⟨v, n⟩ hmem
    have hn := (Table.mem_pairs orderTab set2).mp hmem
    have hv := hle v
    rw [Multiset.coe_count, Multiset.coe_count] at hv
    rw [h2] at hn
    split_ifs at hn with hbv
    obtain rfl := Option.some.inj hn
    simp only [h1]
    rw [if_neg (by omega)]
    simp only [Bool.not_eq_true', decide_eq_false_iff_not]
    omega

/-- An answer of `isArraySubset` means that there was no NaN. -/
theorem not_isNaN_of_isArraySubset {r : Bool}
    (h : isArraySubset isNaN orderMerged orderTab a b false = .ok r) :
    (∀ v ∈ a, ¬ isNaN v) ∧ ∀ v ∈ b, ¬ isNaN v := by
  simp only [isArraySubset, Bool.false_eq_true, if_false, bind, Except.bind] at h
  split at h
  · cases h
  · next set1 hset1 =>
    split at h
    · cases h
    · next set2 hset2 => exact ⟨not_isNaN_of_setLoop hset1, not_isNaN_of_setLoop hset2⟩

/-- Without merging, `isArraySubset` is the order of the multisets of lists without NaN. -/
theorem isArraySubset_iff :
    isArraySubset isNaN orderMerged orderTab a b false = .ok true ↔
      (∀ v ∈ a, ¬ isNaN v) ∧ (∀ v ∈ b, ¬ isNaN v) ∧ (b : Multiset V) ≤ a := by
  have hall : ∀ (ha : ∀ v ∈ a, ¬ isNaN v) (hb : ∀ v ∈ b, ¬ isNaN v),
      isArraySubset isNaN orderMerged orderTab a b false = .ok true ↔ (b : Multiset V) ≤ a := by
    intro ha hb
    obtain ⟨set1, hset1, h1⟩ := countedSet_spec ha
    obtain ⟨set2, hset2, h2⟩ := countedSet_spec hb
    rw [← all_counted_iff orderTab h1 h2]
    simp only [isArraySubset, Bool.false_eq_true, if_false, hset1, hset2, bind, Except.bind]
    exact ⟨fun h => Except.ok.inj h, fun h => congrArg Except.ok h⟩
  constructor
  · intro h
    obtain ⟨ha, hb⟩ := not_isNaN_of_isArraySubset h
    exact ⟨ha, hb, (hall ha hb).mp h⟩
  · rintro ⟨ha, hb, hle⟩
    exact (hall ha hb).mpr hle

/-- With merging, `isArraySubset` asks whether the elements of the second list are in the first. -/
theorem isArraySubset_merged (ha : ∀ v ∈ a, ¬ isNaN v) (hb : ∀ v ∈ b, ¬ isNaN v) :
    isArraySubset isNaN orderMerged orderTab a b true = .ok (decide (b ⊆ a)) := by
  obtain ⟨set1, hset1, h1⟩ := mergedSet_spec ha
  obtain ⟨set2, hset2, h2⟩ := mergedSet_spec hb
  simp only [isArraySubset, if_true, hset1, hset2, bind, Except.bind]
  refine congrArg Except.ok ?_
  rw [Bool.eq_iff_iff, List.all_eq_true, decide_eq_true_iff]
  constructor
  · intro hall v hv
    obtain ⟨w, hw⟩ := Option.isSome_iff_exists.mp ((h2 v).mpr hv)
    exact (h1 v).mp (hall ⟨v, w⟩ ((Table.mem_pairs orderMerged set2).mpr hw))
  · rintro hsub ⟨v, w⟩ hmem
    refine (h1 v).mpr (hsub ((h2 v).mp ?_))
    rw [(Table.mem_pairs orderMerged set2).mp hmem]
    rfl

/-- **`union` gives the greatest common part of two lists.** For all lists without nil and NaN,
whatever the orders of the traversals, `union` returns a list that both contain as judged by
`isArraySubset` without merging, and that contains every list that both contain. Every value occurs
in it as often as in the list where it occurs less. -/
theorem union_spec (isNaN : V → Bool) (a b : List V) (ha : ∀ v ∈ a, ¬ isNaN v)
    (hb : ∀ v ∈ b, ¬ isNaN v) (order₁ order₂ : PairsOrder ℕ V)
    (orderTab orderA orderB orderU : PairsOrder V ℤ) (orderMerged : PairsOrder V Unit) :
    ∃ u, union isNaN order₁ order₂ orderTab (some a) (some b) = .ok u ∧
      isArraySubset isNaN orderMerged orderA a u false = .ok true ∧
      isArraySubset isNaN orderMerged orderB b u false = .ok true ∧
      (∀ c, isArraySubset isNaN orderMerged orderA a c false = .ok true →
        isArraySubset isNaN orderMerged orderB b c false = .ok true →
        isArraySubset isNaN orderMerged orderU u c false = .ok true) ∧
      ∀ v, u.count v = min (a.count v) (b.count v) := by
  obtain ⟨u, hu, hinter⟩ := union_eq order₁ order₂ orderTab ha hb
  have hleft : (u : Multiset V) ≤ a := hinter ▸ Multiset.inter_le_left
  have hright : (u : Multiset V) ≤ b := hinter ▸ Multiset.inter_le_right
  have hnan : ∀ v ∈ u, ¬ isNaN v := fun v hv => ha v (Multiset.mem_of_le hleft hv)
  refine ⟨u, hu, isArraySubset_iff.mpr ⟨ha, hnan, hleft⟩, isArraySubset_iff.mpr ⟨hb, hnan, hright⟩,
    fun c hac hbc => ?_, fun v => ?_⟩
  · obtain ⟨-, hc, hca⟩ := isArraySubset_iff.mp hac
    obtain ⟨-, -, hcb⟩ := isArraySubset_iff.mp hbc
    exact isArraySubset_iff.mpr ⟨hnan, hc, hinter ▸ Multiset.le_inter hca hcb⟩
  · have hcount := congrArg (Multiset.count v) hinter
    rwa [Multiset.coe_count, Multiset.count_inter, Multiset.coe_count, Multiset.coe_count] at hcount

/-- Two lists with repeated elements. -/
theorem union_spec_repeated :
    ∃ u, union (fun _ => false) (.entries ℕ ℤ) (.entries ℕ ℤ) (.entries ℤ ℤ) (some [7, 3, 7, 7])
        (some [7, 5, 7, 3, 3]) = .ok u ∧
      isArraySubset (fun _ => false) (.entries ℤ Unit) (.entries ℤ ℤ) [7, 3, 7, 7] u false =
        .ok true ∧
      isArraySubset (fun _ => false) (.entries ℤ Unit) (.entries ℤ ℤ) [7, 5, 7, 3, 3] u false =
        .ok true ∧
      (∀ c, isArraySubset (fun _ => false) (.entries ℤ Unit) (.entries ℤ ℤ) [7, 3, 7, 7] c false =
          .ok true →
        isArraySubset (fun _ => false) (.entries ℤ Unit) (.entries ℤ ℤ) [7, 5, 7, 3, 3] c false =
          .ok true →
        isArraySubset (fun _ => false) (.entries ℤ Unit) (.entries ℤ ℤ) u c false = .ok true) ∧
      ∀ v, u.count v = min ([7, 3, 7, 7].count v) ([7, 5, 7, 3, 3].count v) :=
  union_spec (fun _ => false) [7, 3, 7, 7] [7, 5, 7, 3, 3] (by simp) (by simp) _ _ _ _ _ _ _

/-- A list that has NaN as its element, here `none`, has no intersection with any list: NaN is not
allowed as a key. -/
theorem union_nan :
    ¬ ∃ u, union Option.isNone (.entries ℕ (Option ℤ)) (.entries ℕ (Option ℤ))
      (.entries (Option ℤ) ℤ) (some [none]) (some []) = .ok u := by
  rintro ⟨u, hu⟩
  cases hu

end CodeTest.ListSets
