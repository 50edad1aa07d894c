import CodeTest.Timer.Rearranged

/-!
# The invariant of the heap timer

`Valid` says how the heap, the nodes and the map of a `MinHeapTimer` belong together.
`Valid.addTimer` and `Valid.delNode` say what the two operations do to a valid timer: they keep it
valid, and they add or remove one node and leave the others as they are.
-/

namespace CodeTest.MinHeapTimer

open BinaryHeap

variable {Cb : Type*} {t : MinHeapTimer Cb} {p q : Addr}

/-- The heap is ordered, its nodes know their positions, the map leads exactly to the nodes in the
heap, no other node is allocated, and no id is larger than the count. -/
structure Valid (t : MinHeapTimer Cb) : Prop where
  ordered : Ordered t.keys t._heap.length
  seated : Seated t t._heap.length
  map_iff : ∀ id p, t._map.lookup id = some p ↔ p ∈ t._heap ∧ (t.timerAt p).map Timer.id = some id
  mem_heap : ∀ p, p ∈ t.nodes → p ∈ t._heap
  id_le : ∀ id, id ∈ t._map → id ≤ t._count

/-- The timers in the heap. -/
def timers (t : MinHeapTimer Cb) : List (Timer Cb) := t._heap.filterMap t.timerAt

theorem Seated.nodup (h : Seated t t._heap.length) : t._heap.Nodup := by
  rw [List.nodup_iff_injective_get]
  intro i j hij
  refine Fin.ext (h.inj i.2 j.2 (p := t._heap.get j) ?_ ?_)
  · rw [← hij]
    simp
  · simp

theorem Seated.mem_nodes (h : Seated t t._heap.length) (hp : p ∈ t._heap) : p ∈ t.nodes := by
  obtain ⟨i, hi⟩ := List.mem_iff_getElem?.mp hp
  obtain ⟨node, hnode, -⟩ := h i (List.getElem?_eq_some_iff.mp hi).1 p hi
  exact AList.lookup_isSome.mp (by rw [hnode]; rfl)

theorem timerAt_eq_none_iff : t.timerAt p = none ↔ p ∉ t.nodes := by
  rw [timerAt, Option.map_eq_none_iff, AList.lookup_eq_none]

/-- The timers of the nodes of the heap. -/
theorem Valid.exists_timerAt (h : t.Valid) (hp : p ∈ t._heap) : ∃ tm, t.timerAt p = some tm :=
  Option.ne_none_iff_exists'.mp fun hnone =>
    timerAt_eq_none_iff.mp hnone (h.seated.mem_nodes hp)

/-- The nodes of the heap are allocated. -/
theorem Valid.any_isNone (h : t.Valid) :
    (t._heap.any fun p => (t.nodes.lookup p).isNone) = false := by
  rw [List.any_eq_false]
  intro q hq
  have hnode := AList.lookup_isSome.mpr (h.seated.mem_nodes hq)
  simpa [Option.isNone_iff_eq_none, Option.isSome_iff_ne_none] using hnode

/-- The ids of the timers have been given out. -/
theorem Valid.timer_id_le (h : t.Valid) {tm : Timer Cb} (htm : tm ∈ t.timers) :
    tm.id ≤ t._count := by
  obtain ⟨p, hp, htm⟩ := List.mem_filterMap.mp htm
  apply h.id_le
  apply AList.lookup_isSome.mp
  rw [(h.map_iff tm.id p).mpr ⟨hp, by rw [htm]; rfl⟩]
  rfl

theorem valid_new : (new : MinHeapTimer Cb).Valid where
  ordered i _ hi := by simp [new] at hi
  seated i hi := by simp [new] at hi
  map_iff id p := by simp [new]
  mem_heap p hp := by simp [new] at hp
  id_le id hid := by simp [new] at hid

/-! ## AddTimer -/

theorem timerAt_pushNode (t : MinHeapTimer Cb) (p q : Addr) (node : TimerNode Cb) :
    (t.pushNode p node).timerAt q = if q = p then some (.ofNode node) else t.timerAt q := by
  rw [timerAt, pushNode, Table.lookup_insert_eq]
  split_ifs <;> rfl

theorem getElem?_pushNode (t : MinHeapTimer Cb) (p : Addr) (node : TimerNode Cb) {i : ℕ}
    (hi : i < t._heap.length) : (t.pushNode p node)._heap[i]? = t._heap[i]? :=
  List.getElem?_append_left hi

/-- A node put at the end, with its position, is seated. -/
theorem Seated.pushNode (h : Seated t t._heap.length) (hp : p ∉ t.nodes) (node : TimerNode Cb)
    (hnode : node.idx = t._heap.length) : Seated (t.pushNode p node) (t._heap.length + 1) := by
  intro i hi q hq
  rcases Nat.lt_succ_iff_lt_or_eq.mp hi with hi | rfl
  · rw [getElem?_pushNode t p node hi] at hq
    obtain ⟨node', hnode', hidx⟩ := h i hi q hq
    refine ⟨node', ?_, hidx⟩
    have hqp : q ≠ p := by
      rintro rfl
      exact hp (AList.lookup_isSome.mp (by rw [hnode']; rfl))
    rw [MinHeapTimer.pushNode, Table.lookup_insert_eq, if_neg hqp, hnode']
  · have : q = p := by simpa [MinHeapTimer.pushNode, eq_comm] using hq
    subst this
    exact ⟨node, by rw [MinHeapTimer.pushNode, Table.lookup_insert_eq, if_pos rfl], hnode⟩

/-- A node put at the end of an ordered heap is to be sifted up. -/
theorem upFrom_pushNode (h : Ordered t.keys t._heap.length) (hseat : Seated t t._heap.length)
    (hp : p ∉ t.nodes) (node : TimerNode Cb) :
    UpFrom (t.pushNode p node).keys (t._heap.length + 1) t._heap.length := by
  have hkeys : ∀ i, i < t._heap.length → (t.pushNode p node).keys i = t.keys i := by
    intro i hi
    rw [keys_eq, keys_eq, getElem?_pushNode t p node hi, List.getElem?_eq_getElem hi,
      Option.bind_some, Option.bind_some, timerAt_pushNode, if_neg]
    intro heq
    exact hp (heq ▸ hseat.mem_nodes (List.getElem_mem hi))
  constructor
  · intro i h₀ hi hne
    have hlt := parent_lt h₀
    rw [hkeys i (by omega), hkeys (parent i) (by omega)]
    exact h i h₀ (by omega)
  · rintro - i ⟨h₀, hi, hpar⟩
    have hlt := parent_lt h₀
    omega

theorem bmod_count (h₀ : 0 ≤ t._count) (h : t._count + 1 < 2 ^ 31) :
    (t._count + 1).bmod (2 ^ 32) = t._count + 1 := by
  rw [Int.bmod_eq_of_le] <;> omega

/-- A valid timer, rearranged with a new node and in order, is valid with the new id in the map. -/
theorem Valid.pushNode (h : t.Valid) {t₁ : MinHeapTimer Cb} {node : TimerNode Cb}
    (hid : t._count < node.id) (hp : p ∉ t.nodes) (hheap : t₁._heap.Perm (p :: t._heap))
    (htimer : ∀ q, t₁.timerAt q = if q = p then some (.ofNode node) else t.timerAt q)
    (hcount : t₁._count = node.id) (hseat : Seated t₁ t₁._heap.length)
    (hord : Ordered t₁.keys t₁._heap.length) :
    ({ t₁ with _map := t._map.insert node.id p } : MinHeapTimer Cb).Valid := by
  have hpheap : p ∉ t._heap := fun hmem => hp (h.seated.mem_nodes hmem)
  have hnew : t._map.lookup node.id = none :=
    AList.lookup_eq_none.mpr fun hmem => (h.id_le _ hmem).not_gt hid
  refine ⟨hord, hseat, fun id q => ?_, fun q hq => ?_, fun id hmem => ?_⟩
  · show (t._map.insert _ p).lookup id = some q ↔
      q ∈ t₁._heap ∧ (t₁.timerAt q).map Timer.id = some id
    rw [hheap.mem_iff, htimer, Table.lookup_insert_eq, List.mem_cons]
    by_cases hq : q = p
    · subst hq
      have hnone : t._map.lookup id ≠ some q := fun heq => hpheap ((h.map_iff id q).mp heq).1
      by_cases hidc : id = node.id
      · simp [hidc, Timer.ofNode]
      · simp [hidc, hnone, Timer.ofNode, Ne.symm hidc]
    · rw [if_neg hq, or_iff_right hq, ← h.map_iff]
      by_cases hidc : id = node.id
      · rw [if_pos hidc, hidc, hnew]
        simp [Ne.symm hq]
      · rw [if_neg hidc]
  · show q ∈ t₁._heap
    have hmem : t₁.timerAt q ≠ none := fun hnone => timerAt_eq_none_iff.mp hnone hq
    rw [hheap.mem_iff, List.mem_cons]
    rw [htimer] at hmem
    by_cases hqp : q = p
    · exact .inl hqp
    · rw [if_neg hqp, ne_eq, timerAt_eq_none_iff, not_not] at hmem
      exact .inr (h.mem_heap q hmem)
  · show id ≤ t₁._count
    rw [hcount]
    rcases (AList.mem_insert _).mp hmem with rfl | hmem
    · exact le_rfl
    · exact (h.id_le id hmem).trans hid.le

/-- `AddTimer` on a valid timer, as long as the count does not overflow: the id is the next one, and
the heap has one more node, while the timers of the others are as before. -/
theorem Valid.addTimer_nodes (h : t.Valid) (h₀ : 0 ≤ t._count) (hcount : t._count + 1 < 2 ^ 31)
    (alloc : Allocator (TimerNode Cb)) (now expire : UInt32) (cb : Option Cb) :
    (t.addTimer alloc now expire cb).1 = t._count + 1 ∧
      (t.addTimer alloc now expire cb).2._count = t._count + 1 ∧
      (t.addTimer alloc now expire cb).2.Valid ∧
      (t.addTimer alloc now expire cb).2._heap.Perm (alloc.fresh t.nodes :: t._heap) ∧
      ∀ q, (t.addTimer alloc now expire cb).2.timerAt q =
        if q = alloc.fresh t.nodes then some ⟨t._count + 1, now + expire, cb⟩ else t.timerAt q := by
  have hp : alloc.fresh t.nodes ∉ t.nodes := AList.lookup_eq_none.mp (alloc.fresh_free _)
  have hid : t._count + 1 ∉ t._map := fun hmem => by have := h.id_le _ hmem; omega
  simp only [MinHeapTimer.addTimer, MinHeapTimer.count, bmod_count h₀ hcount]
  generalize alloc.fresh t.nodes = p at hp
  set node : TimerNode Cb := ⟨t._heap.length, t._count + 1, now + expire, cb⟩
  set t₀ : MinHeapTimer Cb := { t with _count := t._count + 1 }
  have hlen : (t₀.pushNode p node)._heap.length = t._heap.length + 1 := by
    simp [t₀, MinHeapTimer.pushNode]
  have hseat₀ : Seated (t₀.pushNode p node) (t._heap.length + 1) :=
    Seated.pushNode (t := t₀) h.seated hp node rfl
  have hup : UpFrom (t₀.pushNode p node).keys (t._heap.length + 1) t._heap.length :=
    upFrom_pushNode (t := t₀) h.ordered h.seated hp node
  have hlt := Nat.lt_succ_self t._heap.length
  obtain ⟨hre, hseat⟩ := Rearranged.shiftUp hlen.ge hlt
  have hord := shiftUp_ordered hlen.ge hlt hup
  rw [hlen, Nat.add_sub_cancel]
  set t₁ := (t₀.pushNode p node).shiftUp t._heap.length
  have hmap : t₁._map = t._map := hre.map
  have hheap : t₁._heap.Perm (p :: t._heap) := hre.perm.trans (List.perm_append_singleton _ _)
  have htimer : ∀ q, t₁.timerAt q = if q = p then some (.ofNode node) else t.timerAt q :=
    fun q => (hre.timerAt q).trans (timerAt_pushNode _ p q node)
  have hlen₁ : t₁._heap.length = t._heap.length + 1 := hre.length.trans hlen
  rw [hmap, if_neg hid]
  refine ⟨trivial, hre.count, ?_, hheap, htimer⟩
  exact h.pushNode (Int.lt_add_one_iff.mpr le_rfl) hp hheap htimer hre.count
    (hlen₁ ▸ hseat hseat₀) (hlen₁ ▸ hord)

/-- **`AddTimer` on a valid timer**, as long as the count does not overflow: the id is the next one,
and the timers in the heap are those before and the new one. -/
theorem Valid.addTimer (h : t.Valid) (h₀ : 0 ≤ t._count) (hcount : t._count + 1 < 2 ^ 31)
    (alloc : Allocator (TimerNode Cb)) (now expire : UInt32) (cb : Option Cb) :
    (t.addTimer alloc now expire cb).1 = t._count + 1 ∧
      (t.addTimer alloc now expire cb).2._count = t._count + 1 ∧
      (t.addTimer alloc now expire cb).2.Valid ∧
      (t.addTimer alloc now expire cb).2.timers.Perm
        (⟨t._count + 1, now + expire, cb⟩ :: t.timers) := by
  have hp : alloc.fresh t.nodes ∉ t.nodes := AList.lookup_eq_none.mp (alloc.fresh_free _)
  obtain ⟨hid, hcount', hvalid, hheap, htimer⟩ := h.addTimer_nodes h₀ hcount alloc now expire cb
  refine ⟨hid, hcount', hvalid, ?_⟩
  have hold : t._heap.filterMap (t.addTimer alloc now expire cb).2.timerAt = t.timers := by
    refine List.filterMap_congr fun q hq => ?_
    rw [htimer, if_neg]
    rintro rfl
    exact hp (h.seated.mem_nodes hq)
  refine (hheap.filterMap (t.addTimer alloc now expire cb).2.timerAt).trans (.of_eq ?_)
  rw [List.filterMap_cons, htimer, if_pos rfl, hold]

/-! ## DelTimer -/

/-- The part of `_delNode` before the node is popped: it ends with the node in the last place, and
the places before it in order. -/
theorem Valid.delNode_sift (h : t.Valid) {i : ℕ} (hi : t._heap[i]? = some p) :
    let last := t._heap.length - 1
    let t₁ := if i ≠ last then
        (({ t with _heap := exchange t._heap i last }).setIdx i).resign i
      else t
    Rearranged t._heap.length t t₁ ∧ t₁._heap[last]? = some p ∧ Seated t₁ last ∧
      Ordered t₁.keys last := by
  intro last t₁
  have hlen : i < t._heap.length := (List.getElem?_eq_some_iff.mp hi).1
  have hlast : last < t._heap.length := by omega
  by_cases hne : i ≠ last
  · have ht₁ : t₁ = (({ t with _heap := exchange t._heap i last }).setIdx i).resign i := if_pos hne
    set t₀ := ({ t with _heap := exchange t._heap i last } : MinHeapTimer Cb).setIdx i
    have hre₀ : Rearranged t._heap.length t t₀ :=
      (rearranged_exchange le_rfl hlen hlast).trans (rearranged_setIdx _ i)
    have hheap : ∀ k, t₀._heap[k]? = t._heap[Equiv.swap i last k]? := by
      intro k
      rw [heap_setIdx, getElem?_exchange hlen hlast]
    have hlast₀ : t₀._heap.length - 1 = last := by rw [hre₀.length]
    have hseat₀ : Seated t₀ last := fun k hk =>
      h.seated.exchange le_rfl hlen hlast (by omega) (by omega)
    -- only the position `i` holds another key than before
    have hloose : Loose t₀.keys last i := by
      have hord : Ordered t.keys last := fun k h₀ hk => h.ordered k h₀ (by omega)
      refine hord.loose fun k hk hki => hre₀.keys_eq ?_
      rw [hheap, Equiv.swap_apply_of_ne_of_ne hki (by omega)]
    rw [← hlast₀] at hloose hseat₀ hne
    obtain ⟨hre, hseat, hord⟩ := resign_spec (by omega) hloose hseat₀
    rw [ht₁]
    rw [hlast₀] at hre hseat hord
    refine ⟨hre₀.trans (hre.mono (by omega)), ?_, hseat, hord⟩
    rw [hre.beyond last le_rfl, hheap, Equiv.swap_apply_right, hi]
  · have ht₁ : t₁ = t := if_neg hne
    rw [ht₁]
    have hil : i = last := not_not.mp hne
    exact ⟨.refl _ t, hil ▸ hi, fun k hk => h.seated k (by omega),
      fun k h₀ hk => h.ordered k h₀ (by omega)⟩

theorem timerAt_popNode (t : MinHeapTimer Cb) (p q : Addr) (id : ℤ) :
    (t.popNode p id).timerAt q = if q = p then none else t.timerAt q := by
  rw [timerAt, popNode, Table.lookup_erase_eq]
  split_ifs <;> rfl

/-- The map without the id of a node leads to the other nodes. -/
theorem Valid.map_erase_iff (h : t.Valid) {tm : Timer Cb} (htm : t.timerAt p = some tm)
    {l : List Addr} (hheap : ∀ q, q ∈ t._heap ↔ q = p ∨ q ∈ l) (hpl : p ∉ l) (id : ℤ) (q : Addr) :
    (t._map.erase tm.id).lookup id = some q ↔
      q ∈ l ∧ (if q = p then none else t.timerAt q).map Timer.id = some id := by
  have hpid : t._map.lookup tm.id = some p :=
    (h.map_iff _ _).mpr ⟨(hheap p).mpr (.inl rfl), by rw [htm]; rfl⟩
  rw [Table.lookup_erase_eq]
  by_cases hq : q = p
  · subst hq
    have hne : id ≠ tm.id → t._map.lookup id ≠ some q := by
      intro hid heq
      have hmap := ((h.map_iff id q).mp heq).2
      rw [htm] at hmap
      exact hid (Option.some_inj.mp hmap).symm
    by_cases hid : id = tm.id <;> simp [hid, hpl, hne]
  · rw [if_neg hq]
    by_cases hid : id = tm.id
    · subst hid
      refine iff_of_false (by simp) fun hmem => hq ?_
      have hmap := (h.map_iff tm.id q).mpr ⟨(hheap q).mpr (.inr hmem.1), hmem.2⟩
      rw [hpid, Option.some_inj] at hmap
      exact hmap.symm
    · rw [if_neg hid, h.map_iff, hheap, or_iff_right hq]

/-- A valid timer, rearranged with a node at the end and in order before it, is valid without it. -/
theorem Valid.popNode (h : t.Valid) {t₁ : MinHeapTimer Cb} {l : List Addr} {tm : Timer Cb}
    (hre : Rearranged t._heap.length t t₁) (hl : t₁._heap = l ++ [p])
    (hseat : Seated t₁ l.length) (hord : Ordered t₁.keys l.length) (htm : t.timerAt p = some tm) :
    (t₁.popNode p tm.id).Valid := by
  have hdrop : t₁._heap.dropLast = l := by rw [hl, List.dropLast_concat]
  have hpl : p ∉ l := by
    have := hre.perm.nodup_iff.mpr h.seated.nodup
    rw [hl, List.nodup_append'] at this
    exact fun hmem => this.2.2 hmem (by simp)
  have hheap : ∀ q, q ∈ t._heap ↔ q = p ∨ q ∈ l := by
    intro q
    rw [← hre.perm.mem_iff, hl, List.mem_append, List.mem_singleton, or_comm]
  have hget : ∀ i, i < l.length → t₁._heap[i]? = l[i]? := by
    intro i hi
    rw [hl, List.getElem?_append_left hi]
  constructor
  · have hkeys : ∀ i, i < l.length → (t₁.popNode p tm.id).keys i = t₁.keys i := by
      intro i hi
      rw [keys_eq, keys_eq, hget i hi]
      simp only [MinHeapTimer.popNode, hdrop, List.getElem?_eq_getElem hi, Option.bind_some]
      have := timerAt_popNode t₁ p l[i] tm.id
      rw [if_neg (ne_of_mem_of_not_mem (List.getElem_mem hi) hpl)] at this
      rw [← this]
      rfl
    intro i h₀ hi
    simp only [MinHeapTimer.popNode, hdrop] at hi
    have hlt := parent_lt h₀
    rw [hkeys i hi, hkeys (parent i) (by omega)]
    exact hord i h₀ hi
  · intro i hi q hq
    simp only [MinHeapTimer.popNode, hdrop] at hi hq
    obtain ⟨node, hnode, hidx⟩ := hseat i hi q ((hget i hi).trans hq)
    refine ⟨node, ?_, hidx⟩
    simp only [MinHeapTimer.popNode]
    rw [Table.lookup_erase_eq, if_neg (ne_of_mem_of_not_mem (List.mem_of_getElem? hq) hpl), hnode]
  · intro id q
    rw [timerAt_popNode, hre.timerAt]
    simp only [MinHeapTimer.popNode, hdrop, hre.map]
    exact h.map_erase_iff htm hheap hpl id q
  · intro q hq
    have hmem : (t₁.popNode p tm.id).timerAt q ≠ none := fun hnone =>
      timerAt_eq_none_iff.mp hnone hq
    rw [timerAt_popNode, hre.timerAt] at hmem
    split_ifs at hmem with hqp
    · exact absurd rfl hmem
    · rw [ne_eq, timerAt_eq_none_iff, not_not] at hmem
      simp only [MinHeapTimer.popNode, hdrop]
      exact ((hheap q).mp (h.mem_heap q hmem)).resolve_left hqp
  · intro id hmem
    simp only [MinHeapTimer.popNode, hre.map, AList.mem_erase] at hmem
    exact (h.id_le id hmem.2).trans hre.count.ge

/-- **`_delNode` on a node of a valid timer** removes the node, with its entry in the map, and
leaves the others as they are. -/
theorem Valid.delNode (h : t.Valid) (hp : p ∈ t._heap) :
    ∃ t', t.delNode p = some t' ∧ t'.Valid ∧ t'._count = t._count ∧
      t._heap.Perm (p :: t'._heap) ∧ ∀ q, t'.timerAt q = if q = p then none else t.timerAt q := by
  obtain ⟨i, hi⟩ := List.mem_iff_getElem?.mp hp
  have hlen := (List.getElem?_eq_some_iff.mp hi).1
  obtain ⟨node, hnode, rfl⟩ := h.seated i hlen p hi
  obtain ⟨hre, hlast, hseat, hord⟩ := h.delNode_sift hi
  rw [MinHeapTimer.delNode, hnode]
  simp only [Option.bind_eq_bind, Option.bind_some]
  set t₁ := if node.idx ≠ t._heap.length - 1 then
      (({ t with _heap := exchange t._heap node.idx (t._heap.length - 1) }).setIdx node.idx).resign
        node.idx
    else t
  have htm : t.timerAt p = some (.ofNode node) := by rw [timerAt, hnode]; rfl
  obtain ⟨node₁, hnode₁, hid⟩ := Option.map_eq_some_iff.mp ((hre.timerAt p).trans htm)
  have hid : node₁.id = node.id := congrArg Timer.id hid
  have hl : t₁._heap = t₁._heap.dropLast ++ [p] := by
    rw [← hre.length, ← List.getLast?_eq_getElem?] at hlast
    exact (List.dropLast_append_getLast? p hlast).symm
  have hlen' : t₁._heap.dropLast.length = t._heap.length - 1 := by
    rw [List.length_dropLast, hre.length]
  refine ⟨t₁.popNode p node.id, ?_, ?_, hre.count, ?_, fun q => ?_⟩
  · rw [hnode₁, Option.bind_some, hid]
    rfl
  · exact h.popNode hre hl (hlen' ▸ hseat) (hlen' ▸ hord) htm
  · refine hre.perm.symm.trans ?_
    rw [hl]
    exact List.perm_append_singleton _ _
  · rw [timerAt_popNode, hre.timerAt]

end CodeTest.MinHeapTimer
