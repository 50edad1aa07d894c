import CodeTest.Timer.MinHeapTimer

/-!
# What the sifts of the heap timer do

A sift only swaps nodes: it rearranges the heap within its bound, leaves every timer as it is
(`Rearranged`), and keeps the back pointers right (`Seated`). `Rearranged.shiftUp` and
`Rearranged.shiftDown` say this of the two sifts, and `shiftUp_ordered` and `resign_ordered` that
they restore the order.
-/

namespace CodeTest.MinHeapTimer

open BinaryHeap

variable {Cb : Type*} {t t' t'' : MinHeapTimer Cb} {n i j : ℕ}

/-- What a node says of its timer: all of it but the position. -/
structure Timer (Cb : Type*) where
  id : ℤ
  expire : UInt32
  cb : Option Cb

def Timer.ofNode (node : TimerNode Cb) : Timer Cb := ⟨node.id, node.expire, node.cb⟩

/-- The timer of the node at `p`. -/
def timerAt (t : MinHeapTimer Cb) (p : Addr) : Option (Timer Cb) :=
  (t.nodes.lookup p).map Timer.ofNode

/-- The expiry times by position. -/
def keys (t : MinHeapTimer Cb) (i : ℕ) : ℕ := (t.expireAt i).toNat

theorem compare_eq_true_iff : t.compare i j = true ↔ t.keys i < t.keys j := by
  rw [compare, decide_eq_true_eq, UInt32.lt_iff_toNat_lt]
  rfl

theorem keys_eq (t : MinHeapTimer Cb) (i : ℕ) :
    t.keys i = ((t._heap[i]?.bind t.timerAt).elim 0 Timer.expire).toNat := by
  rw [keys, expireAt]
  cases t._heap[i]? with
  | none => rfl
  | some p =>
    simp only [Option.bind_some, timerAt]
    cases t.nodes.lookup p <;> rfl

/-- `t'` comes from `t` by moving nodes about at the positions before `n`. -/
structure Rearranged (n : ℕ) (t t' : MinHeapTimer Cb) : Prop where
  perm : t'._heap.Perm t._heap
  beyond : ∀ i, n ≤ i → t'._heap[i]? = t._heap[i]?
  timerAt : ∀ p, t'.timerAt p = t.timerAt p
  map : t'._map = t._map
  count : t'._count = t._count

/-- The node at the position `i` is allocated and knows its position. -/
def SeatedAt (t : MinHeapTimer Cb) (i : ℕ) : Prop :=
  ∀ p, t._heap[i]? = some p → ∃ node, t.nodes.lookup p = some node ∧ node.idx = i

/-- The nodes at the positions before `n` are seated. -/
def Seated (t : MinHeapTimer Cb) (n : ℕ) : Prop := ∀ i, i < n → SeatedAt t i

namespace Rearranged

theorem refl (n : ℕ) (t : MinHeapTimer Cb) : Rearranged n t t :=
  ⟨.refl _, fun _ _ => rfl, fun _ => rfl, rfl, rfl⟩

theorem trans (h : Rearranged n t t') (h' : Rearranged n t' t'') : Rearranged n t t'' where
  perm := h'.perm.trans h.perm
  beyond i hi := (h'.beyond i hi).trans (h.beyond i hi)
  timerAt p := (h'.timerAt p).trans (h.timerAt p)
  map := h'.map.trans h.map
  count := h'.count.trans h.count

theorem mono {m : ℕ} (h : Rearranged m t t') (hmn : m ≤ n) : Rearranged n t t' :=
  { h with beyond := fun i hi => h.beyond i (hmn.trans hi) }

theorem length (h : Rearranged n t t') : t'._heap.length = t._heap.length := h.perm.length_eq

end Rearranged

/-! ## Writing a position and swapping -/

theorem lookup_setIdx (t : MinHeapTimer Cb) (i : ℕ) (q : Addr) :
    (t.setIdx i).nodes.lookup q =
      if t._heap[i]? = some q then (t.nodes.lookup q).map fun node => { node with idx := i }
      else t.nodes.lookup q := by
  unfold setIdx
  cases h : t._heap[i]? with
  | none => simp
  | some p =>
    simp only [Memory.lookup_modify, Option.some_inj]
    by_cases hq : q = p
    · subst hq
      simp
    · simp [hq, Ne.symm hq]

theorem timerAt_setIdx (t : MinHeapTimer Cb) (i : ℕ) (q : Addr) :
    (t.setIdx i).timerAt q = t.timerAt q := by
  rw [timerAt, lookup_setIdx, timerAt]
  split_ifs
  · rw [Option.map_map]
    rfl
  · rfl

theorem map_setIdx (t : MinHeapTimer Cb) (i : ℕ) : (t.setIdx i)._map = t._map := by
  unfold setIdx
  split <;> rfl

theorem count_setIdx (t : MinHeapTimer Cb) (i : ℕ) : (t.setIdx i)._count = t._count := by
  unfold setIdx
  split <;> rfl

theorem rearranged_setIdx (t : MinHeapTimer Cb) (i : ℕ) : Rearranged n t (t.setIdx i) where
  perm := by rw [heap_setIdx]
  beyond k _ := by rw [heap_setIdx]
  timerAt := timerAt_setIdx t i
  map := map_setIdx t i
  count := count_setIdx t i

/-- Swapping two pointers moves nodes about. -/
theorem rearranged_exchange (hn : n ≤ t._heap.length) (hi : i < n) (hj : j < n) :
    Rearranged n t { t with _heap := exchange t._heap i j } where
  perm := exchange_perm (by omega) (by omega)
  beyond k hk := by
    rw [getElem?_exchange (by omega) (by omega), Equiv.swap_apply_of_ne_of_ne] <;> omega
  timerAt _ := rfl
  map := rfl
  count := rfl

theorem rearranged_swapNodes (hn : n ≤ t._heap.length) (hi : i < n) (hj : j < n) :
    Rearranged n t (t.swapNodes i j) :=
  ((rearranged_exchange hn hi hj).trans (rearranged_setIdx _ i)).trans (rearranged_setIdx _ j)

/-- Keys move with the nodes. -/
theorem Rearranged.keys_eq (h : Rearranged n t t') (hij : t'._heap[i]? = t._heap[j]?) :
    t'.keys i = t.keys j := by
  rw [MinHeapTimer.keys_eq, MinHeapTimer.keys_eq, hij]
  cases t._heap[j]? with
  | none => rfl
  | some p => simp only [Option.bind_some, h.timerAt]

theorem keys_swapNodes (hi : i < t._heap.length) (hj : j < t._heap.length) :
    (t.swapNodes i j).keys = t.keys ∘ Equiv.swap i j := by
  funext k
  refine (rearranged_swapNodes le_rfl hi hj).keys_eq ?_
  rw [heap_swapNodes, getElem?_exchange hi hj]

/-- Pointers at different seats are different. -/
theorem Seated.inj (h : Seated t n) {p : Addr} (hi : i < n) (hj : j < n)
    (hip : t._heap[i]? = some p) (hjp : t._heap[j]? = some p) : i = j := by
  obtain ⟨node, hnode, rfl⟩ := h i hi p hip
  obtain ⟨node', hnode', rfl⟩ := h j hj p hjp
  rw [hnode, Option.some_inj] at hnode'
  rw [hnode']

theorem mem_nodes_setIdx (t : MinHeapTimer Cb) (i : ℕ) (p : Addr) :
    p ∈ (t.setIdx i).nodes ↔ p ∈ t.nodes := by
  rw [← AList.lookup_isSome, ← AList.lookup_isSome, lookup_setIdx]
  split_ifs <;> simp

theorem seatedAt_setIdx_self (h : ∀ p, t._heap[i]? = some p → p ∈ t.nodes) :
    SeatedAt (t.setIdx i) i := by
  intro p hp
  rw [heap_setIdx] at hp
  obtain ⟨node, hnode⟩ := Option.isSome_iff_exists.mp (AList.lookup_isSome.mpr (h p hp))
  refine ⟨{ node with idx := i }, ?_, rfl⟩
  rw [lookup_setIdx, if_pos hp, hnode, Option.map_some]

theorem SeatedAt.setIdx (h : SeatedAt t j)
    (hne : ∀ p, t._heap[j]? = some p → t._heap[i]? ≠ some p) : SeatedAt (t.setIdx i) j := by
  intro p hp
  rw [heap_setIdx] at hp
  rw [lookup_setIdx, if_neg (hne p hp)]
  exact h p hp

/-- Two pointers are swapped and one of the two nodes gets its position: only the other one is not
seated. -/
theorem Seated.exchange (h : Seated t n) (hn : n ≤ t._heap.length) (hi : i < n) (hj : j < n)
    {k : ℕ} (hk : k < n) (hkj : k ≠ j) :
    SeatedAt (({ t with _heap := BinaryHeap.exchange t._heap i j }).setIdx i) k := by
  have hheap : ∀ m, (BinaryHeap.exchange t._heap i j)[m]? = t._heap[Equiv.swap i j m]? :=
    getElem?_exchange (by omega) (by omega)
  by_cases hki : k = i
  · subst hki
    refine seatedAt_setIdx_self fun p hp => ?_
    rw [hheap, Equiv.swap_apply_left] at hp
    obtain ⟨node, hnode, -⟩ := h j hj p hp
    exact AList.lookup_isSome.mp (by rw [hnode]; rfl)
  · refine SeatedAt.setIdx (fun p hp => ?_) fun p hp hp' => ?_
    · rw [hheap, Equiv.swap_apply_of_ne_of_ne hki hkj] at hp
      exact h k hk p hp
    · rw [hheap, Equiv.swap_apply_of_ne_of_ne hki hkj] at hp
      rw [hheap, Equiv.swap_apply_left] at hp'
      exact hkj (h.inj hk hj hp hp')

theorem Seated.swapNodes (h : Seated t n) (hn : n ≤ t._heap.length) (hi : i < n) (hj : j < n) :
    Seated (t.swapNodes i j) n := by
  have hheap : ∀ m, (BinaryHeap.exchange t._heap i j)[m]? = t._heap[Equiv.swap i j m]? :=
    getElem?_exchange (by omega) (by omega)
  intro k hk
  by_cases hkj : k = j
  · subst hkj
    refine seatedAt_setIdx_self fun p hp => ?_
    rw [heap_setIdx, hheap, Equiv.swap_apply_right] at hp
    obtain ⟨node, hnode, -⟩ := h i hi p hp
    rw [mem_nodes_setIdx]
    exact AList.lookup_isSome.mp (by rw [hnode]; rfl)
  · refine (h.exchange hn hi hj hk hkj).setIdx fun p hp hp' => ?_
    rw [heap_setIdx, hheap] at hp hp'
    have hlt : ∀ m, m < n → Equiv.swap i j m < n := by
      intro m hm
      rw [Equiv.swap_apply_def]
      split_ifs <;> omega
    exact hkj ((Equiv.swap i j).injective (h.inj (hlt k hk) (hlt j hj) hp hp'))

/-! ## The sifts -/

/-- Sifting up rearranges the positions before `n` and keeps them seated. -/
theorem Rearranged.shiftUp (hn : n ≤ t._heap.length) (hi : i < n) :
    Rearranged n t (t.shiftUp i) ∧ (Seated t n → Seated (t.shiftUp i) n) := by
  induction t, i using MinHeapTimer.shiftUp.induct with
  | case1 t i parent hpos hcmp ih =>
    rw [MinHeapTimer.shiftUp, if_pos hpos, if_pos hcmp]
    have hp : parent < n := by omega
    have hlen := (rearranged_swapNodes hn hp hi).length
    obtain ⟨hrest, hseat⟩ := ih (by omega) hp
    exact ⟨(rearranged_swapNodes hn hp hi).trans hrest, fun h => hseat (h.swapNodes hn hp hi)⟩
  | case2 t i parent hpos hcmp =>
    rw [MinHeapTimer.shiftUp, if_pos hpos, if_neg hcmp]
    exact ⟨.refl n t, id⟩
  | case3 t i hpos =>
    rw [MinHeapTimer.shiftUp, if_neg hpos]
    exact ⟨.refl n t, id⟩

/-- Sifting up from the one position that may be out of order restores the order. -/
theorem shiftUp_ordered (hn : n ≤ t._heap.length) (hi : i < n) (h : UpFrom t.keys n i) :
    Ordered (t.shiftUp i).keys n := by
  induction t, i using MinHeapTimer.shiftUp.induct with
  | case1 t i parent hpos hcmp ih =>
    rw [MinHeapTimer.shiftUp, if_pos hpos, if_pos hcmp]
    have hp : parent < n := by omega
    have hlen := (rearranged_swapNodes hn hp hi).length
    apply ih (by omega) hp
    rw [keys_swapNodes (by omega) (by omega)]
    rw [compare_eq_true_iff, not_lt] at hcmp
    exact h.swap hpos hi hcmp
  | case2 t i parent hpos hcmp =>
    rw [MinHeapTimer.shiftUp, if_pos hpos, if_neg hcmp]
    rw [not_not, compare_eq_true_iff] at hcmp
    exact h.ordered fun _ => hcmp.le
  | case3 t i hpos =>
    rw [MinHeapTimer.shiftUp, if_neg hpos]
    exact h.ordered fun hi => absurd hi hpos

/-- The child that `_shiftDown` picks is the one with the smallest key. -/
theorem isChild_pickChild (hi : i * 2 + 1 < t._heap.length - 1) :
    IsChild (t._heap.length - 1) i (t.pickChild (i * 2 + 1)) ∧
      ∀ k, IsChild (t._heap.length - 1) i k → t.keys (t.pickChild (i * 2 + 1)) ≤ t.keys k := by
  simp only [isChild_iff, pickChild, compare_eq_true_iff, not_lt]
  split_ifs with h
  · refine ⟨⟨h.1, .inr rfl⟩, ?_⟩
    rintro k ⟨-, rfl | rfl⟩
    · exact h.2
    · exact le_rfl
  · refine ⟨⟨hi, .inl rfl⟩, ?_⟩
    rintro k ⟨hk, rfl | rfl⟩
    · exact le_rfl
    · exact (not_le.mp fun hle => h ⟨hk, hle⟩).le

/-- Sifting down rearranges the positions before the last and keeps them seated. -/
theorem Rearranged.shiftDown (t : MinHeapTimer Cb) (i : ℕ) :
    Rearranged (t._heap.length - 1) t (t.shiftDown i) ∧
      (Seated t (t._heap.length - 1) → Seated (t.shiftDown i) (t._heap.length - 1)) := by
  induction t, i using MinHeapTimer.shiftDown.induct with
  | case1 t i hleft hcmp ih =>
    rw [MinHeapTimer.shiftDown, if_pos hleft, if_pos hcmp]
    have hi : i < t._heap.length - 1 := by omega
    have hc := (isChild_pickChild hleft).1.2.1
    have hswap := rearranged_swapNodes (Nat.sub_le _ 1) hi hc
    rw [hswap.length] at ih
    exact ⟨hswap.trans ih.1, fun h => ih.2 (h.swapNodes (Nat.sub_le _ 1) hi hc)⟩
  | case2 t i hleft hcmp =>
    rw [MinHeapTimer.shiftDown, if_pos hleft, if_neg hcmp]
    exact ⟨.refl _ t, id⟩
  | case3 t i hleft =>
    rw [MinHeapTimer.shiftDown, if_neg hleft]
    exact ⟨.refl _ t, id⟩

theorem keys_swap_pickChild (hleft : i * 2 + 1 < t._heap.length - 1) :
    (t.swapNodes i (t.pickChild (i * 2 + 1))).keys =
      t.keys ∘ Equiv.swap i (t.pickChild (i * 2 + 1)) := by
  have hc := (isChild_pickChild hleft).1.2.1
  exact keys_swapNodes (by omega) (by omega)

/-- Sifting down from a position that may be out of order below restores the order. -/
theorem shiftDown_ordered (h : DownFrom t.keys (t._heap.length - 1) i) :
    Ordered (t.shiftDown i).keys (t._heap.length - 1) := by
  induction t, i using MinHeapTimer.shiftDown.induct with
  | case1 t i hleft hcmp ih =>
    rw [MinHeapTimer.shiftDown, if_pos hleft, if_pos hcmp]
    obtain ⟨hc, hmin⟩ := isChild_pickChild hleft
    rw [heap_swapNodes, length_exchange, keys_swap_pickChild hleft] at ih
    rw [compare_eq_true_iff, not_lt] at hcmp
    exact ih (h.loose.swap hc hcmp hmin)
  | case2 t i hleft hcmp =>
    rw [MinHeapTimer.shiftDown, if_pos hleft, if_neg hcmp]
    rw [not_not, compare_eq_true_iff] at hcmp
    exact h.ordered fun k hk => hcmp.le.trans ((isChild_pickChild hleft).2 k hk)
  | case3 t i hleft =>
    rw [MinHeapTimer.shiftDown, if_neg hleft]
    refine h.ordered fun k hk => ?_
    rw [isChild_iff] at hk
    omega

/-- After sifting down from a loose position, what is left is to sift up from it: either nothing was
moved, or all is in order. -/
theorem shiftDown_upFrom (h : Loose t.keys (t._heap.length - 1) i) :
    UpFrom (t.shiftDown i).keys (t._heap.length - 1) i := by
  rw [shiftDown]
  split_ifs with hleft hcmp
  · rw [compare_eq_true_iff] at hcmp
    exact h.upFrom fun k hk => hcmp.le.trans ((isChild_pickChild hleft).2 k hk)
  · obtain ⟨hc, hmin⟩ := isChild_pickChild hleft
    rw [compare_eq_true_iff, not_lt] at hcmp
    have hdown := h.swap hc hcmp hmin
    have hlen : (t.swapNodes i (t.pickChild (i * 2 + 1)))._heap.length = t._heap.length := by
      rw [heap_swapNodes, length_exchange]
    rw [← keys_swap_pickChild hleft, ← hlen] at hdown
    rw [← hlen]
    exact (shiftDown_ordered hdown).upFrom i
  · refine h.upFrom fun k hk => ?_
    rw [isChild_iff] at hk
    omega

/-- `resign` restores the order from a loose position before the last. -/
theorem resign_spec (hi : i < t._heap.length - 1) (hloose : Loose t.keys (t._heap.length - 1) i)
    (hseat : Seated t (t._heap.length - 1)) :
    Rearranged (t._heap.length - 1) t (t.resign i) ∧ Seated (t.resign i) (t._heap.length - 1) ∧
      Ordered (t.resign i).keys (t._heap.length - 1) := by
  obtain ⟨hdown, hseat'⟩ := Rearranged.shiftDown t i
  have hlen : t._heap.length - 1 ≤ (t.shiftDown i)._heap.length := by
    rw [hdown.length]
    exact Nat.sub_le _ 1
  obtain ⟨hup, hseat''⟩ := Rearranged.shiftUp hlen hi
  exact ⟨hdown.trans hup, hseat'' (hseat' hseat),
    shiftUp_ordered hlen hi (shiftDown_upFrom hloose)⟩

end CodeTest.MinHeapTimer
