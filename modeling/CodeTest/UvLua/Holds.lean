import CodeTest.UvLua.Sifted

/-!
# What the operations of the heap of nodes do

`Holds t s l` says that the heap `s` holds exactly the nodes `l`, in order of position, and that
their timeouts are given by `t`; a node that is not among them has the position -1. With the order
of a heap, each of `minheap_push`, `minheap_pop`, `minheap_erase` and `minheap_adjust` leads to a
heap that holds the nodes it should, whatever the order of positions is then.
-/

namespace CodeTest.UvLua.MinHeap

open BinaryHeap

variable {t : Addr → ℤ} {s s' s₁ : MinHeap} {l l' : List Addr} {e : Addr} {i : ℕ}

structure Holds (t : Addr → ℤ) (s : MinHeap) (l : List Addr) : Prop extends
    Around t s l.length l where
  count : s.n = l.length
  outside : ∀ a node, s.nodes.lookup a = some node → a ∉ l → node.minheap_idx = -1

/-- A heap that holds `l`, in the order of a heap. -/
structure HeapOf (t : Addr → ℤ) (s : MinHeap) (l : List Addr) : Prop extends Holds t s l where
  ordered : Ordered (keys t l) l.length

theorem heapOf_init {nodes : Memory MinHeapNode}
    (h : ∀ a node, nodes.lookup a = some node → node.minheap_idx = -1) :
    HeapOf t (init nodes) [] where
  length_le := le_rfl
  nodup := .nil
  timeout a ha := absurd ha (List.not_mem_nil)
  seat i a hi := by simp at hi
  count := rfl
  outside a node ha _ := h a node ha
  ordered i _ hi := by simp at hi

namespace Holds

theorem lt_length (hi : l[i]? = some e) : i < l.length := (List.getElem?_eq_some_iff.mp hi).1

theorem entry_eq (h : Holds t s l) (hi : l[i]? = some e) : s.entry i = some e :=
  (h.seat i e hi (lt_length hi).ne).1

theorem idx_eq (h : Holds t s l) (hi : l[i]? = some e) : s.idx e = some (i : ℤ) :=
  (h.seat i e hi (lt_length hi).ne).2

theorem idx_of_notMem (h : Holds t s l) {x : ℤ} (hx : s.timeout e = some x) (he : e ∉ l) :
    s.idx e = some (-1) := by
  obtain ⟨node, hnode, -⟩ := exists_lookup_of_timeout hx
  rw [idx, hnode, Option.map_some, h.outside e node hnode he]

theorem elmInheap_eq (h : Holds t s l) {x : ℤ} (hx : s.timeout e = some x) :
    s.elmInheap e = some (decide (e ∈ l)) := by
  rw [elmInheap]
  by_cases he : e ∈ l
  · obtain ⟨i, hi⟩ := List.mem_iff_getElem?.mp he
    have hne : (i : ℤ) ≠ -1 := by omega
    simp [h.idx_eq hi, he, hne]
  · simp [h.idx_of_notMem hx he, he]

end Holds

/-! ## Push -/

theorem exists_reserve (s : MinHeap) (n : ℕ) :
    ∃ k, s.reserve n = { s with p := s.p ++ List.replicate k none } ∧ n ≤ s.p.length + k := by
  by_cases h : s.p.length < n
  · rw [reserve, if_pos h]
    refine ⟨_, rfl, ?_⟩
    generalize (if s.p.length ≠ 0 then s.p.length * 2 else 8) = a
    split_ifs <;> omega
  · rw [reserve, if_neg h]
    exact ⟨0, by simp, by omega⟩

theorem entry_append (s : MinHeap) (q : List (Option Addr)) (hi : s.entry i = some e) :
    ({ s with p := s.p ++ q } : MinHeap).entry i = some e := by
  have hlt : i < s.p.length := by
    by_contra hge
    rw [entry, List.getElem?_eq_none (by omega)] at hi
    cases hi
  rw [entry] at hi ⊢
  rw [List.getElem?_append_left hlt]
  exact hi

theorem HeapOf.push (h : HeapOf t s l) (he : e ∉ l) (htime : s.timeout e = some (t e)) :
    ∃ s' l', s.push e = some s' ∧ l'.Perm (e :: l) ∧ HeapOf t s' l' ∧
      (∀ a, s'.timeout a = s.timeout a) ∧
      ∀ a, a ∉ e :: l → s'.nodes.lookup a = s.nodes.lookup a := by
  obtain ⟨k, hreserve, hroom⟩ := exists_reserve s (s.n + 1)
  have hcount : s.n = l.length := h.count
  rw [MinHeap.push, hreserve]
  set s₀ : MinHeap := { s with p := s.p ++ List.replicate k none, n := s.n + 1 }
  have hperm : (l ++ [e]).Perm (e :: l) := List.perm_append_singleton _ _
  have hat : (l ++ [e])[l.length]? = some e := by simp
  have haround : Around t s₀ l.length (l ++ [e]) := by
    refine ⟨?_, ?_, fun a ha => ?_, fun i a hi hne => ?_⟩
    · simp only [s₀, List.length_append, List.length_singleton, List.length_replicate]
      omega
    · exact hperm.nodup_iff.mpr (List.nodup_cons.mpr ⟨he, h.nodup⟩)
    · rcases List.mem_append.mp ha with ha | ha
      · exact h.timeout a ha
      · rw [List.mem_singleton.mp ha]
        exact htime
    · have hil : i < l.length := by
        have := (List.getElem?_eq_some_iff.mp hi).1
        rw [List.length_append, List.length_singleton] at this
        omega
      rw [List.getElem?_append_left hil] at hi
      exact ⟨entry_append s _ (h.entry_eq hi), h.idx_eq hi⟩
  have hup : UpFrom (keys t (l ++ [e])) (l ++ [e]).length l.length := by
    have hkeys : ∀ j, j < l.length → keys t (l ++ [e]) j = keys t l j := fun j hj => by
      rw [keys, keys, List.getElem?_append_left hj]
    constructor
    · intro j h₀ hj hne
      rw [List.length_append, List.length_singleton] at hj
      have hlt := parent_lt h₀
      rw [hkeys j (by omega), hkeys (parent j) (by omega)]
      exact h.ordered j h₀ (by omega)
    · rintro - j ⟨h₀, hj, hpar⟩
      rw [List.length_append, List.length_singleton] at hj
      have hlt := parent_lt h₀
      omega
  obtain ⟨s', l', hs', hl', haround', halike, hord⟩ := shiftUp_spec haround hat hup
  have hmem : ∀ a, a ∈ l ++ [e] ↔ a ∈ e :: l := fun a => hperm.mem_iff
  refine ⟨s', l', by rw [← hs', hcount], hl'.trans hperm,
    ⟨⟨haround', ?_, fun a node ha hna => ?_⟩, hord⟩, halike.timeout_eq,
    fun a ha => halike.lookup_eq a ((hmem a).not.mpr ha)⟩
  · rw [halike.n_eq, (hl'.trans hperm).length_eq, List.length_cons, ← hcount]
  · have hna' : a ∉ e :: l := (hl'.trans hperm).mem_iff.not.mp hna
    rw [halike.lookup_eq a ((hmem a).not.mpr hna')] at ha
    exact h.outside a node ha fun hmem => hna' (List.mem_cons_of_mem _ hmem)

/-! ## Taking a node out -/

/-- The last node, put behind the others, stays there and is no longer part of the heap. -/
theorem settle_end (h : Around t s l.length l) (hn : s.n = l.length) (he : e ∉ l)
    (hroom : l.length < s.p.length) (htime : s.timeout e = some (t e))
    (hle : ∀ a, 0 < l.length → l[parent l.length]? = some a → t a ≤ t e) :
    ∃ s', s.settle l.length e = some s' ∧ Around t s' l.length l ∧ Alike (e :: l) s s' := by
  have hput : s.shiftDown l.length e = s.put l.length e := by
    rw [shiftDown, hn, shiftDownLoop]
    exact if_neg (by omega)
  have hsettle : s.settle l.length e = s.put l.length e := by
    rw [settle, ← hput]
    by_cases hpos : 0 < l.length
    · have hlt : parent l.length < l.length := parent_lt hpos
      obtain ⟨above, habove⟩ : ∃ a, l[parent l.length]? = some a :=
        ⟨_, List.getElem?_eq_getElem hlt⟩
      have hgreater := elemGreater_eq (h.timeout above (List.mem_of_getElem? habove)) htime
      rw [if_pos hpos]
      show (s.entry (parent l.length)).bind _ = _
      rw [(h.seat _ _ habove hlt.ne).1, Option.bind_some, hgreater,
        decide_eq_false (not_lt.mpr (hle above hpos habove))]
      rfl
    · rw [if_neg hpos]
      rfl
  obtain ⟨s', hs', hp, hn', htimeout, -, hrest⟩ := exists_put hroom htime
  refine ⟨s', hsettle.trans hs', ⟨?_, h.nodup, fun a ha => ?_, fun i a hi hne => ?_⟩, hn',
    htimeout, fun a ha => hrest a fun heq => ha (heq ▸ List.mem_cons_self)⟩
  · rw [hp, List.length_set]
    exact h.length_le
  · rw [htimeout]
    exact h.timeout a ha
  · have hae : a ≠ e := by
      rintro rfl
      exact he (List.mem_of_getElem? hi)
    obtain ⟨hentry, hidx⟩ := h.seat i a hi hne
    rw [entry_set hroom hp, if_neg hne]
    refine ⟨hentry, ?_⟩
    rw [idx, hrest a hae]
    exact hidx

/-- The nodes that are left when the one at `i` is replaced by the last one. -/
theorem exists_replaced (hi : l[i]? = some e) :
    ∃ last l₁, l[l.length - 1]? = some last ∧ (e :: l₁).Perm l ∧ l₁.length = l.length - 1 ∧
      (∀ j, j < l₁.length → j ≠ i → l₁[j]? = l[j]?) ∧
      (i < l₁.length → l₁[i]? = some last) ∧ (i = l₁.length → last = e) := by
  have hil := Holds.lt_length hi
  obtain ⟨last, hlast⟩ : ∃ a, l[l.length - 1]? = some a :=
    ⟨_, List.getElem?_eq_getElem (by omega)⟩
  have hpos : l.length - 1 < l.length := by omega
  have hget := getElem?_exchange hil hpos
  have hlen : (exchange l i (l.length - 1)).dropLast.length = l.length - 1 := by
    rw [List.length_dropLast, length_exchange]
  have hend : (exchange l i (l.length - 1)).getLast? = some e := by
    rw [List.getLast?_eq_getElem?, length_exchange, hget, Equiv.swap_apply_right, hi]
  have hdrop : ∀ j, j < l.length - 1 →
      (exchange l i (l.length - 1)).dropLast[j]? = l[Equiv.swap i (l.length - 1) j]? := by
    intro j hj
    rw [List.dropLast_eq_take, length_exchange, List.getElem?_take_of_lt hj, hget]
  refine ⟨last, (exchange l i (l.length - 1)).dropLast, hlast, ?_, hlen, fun j hj hji => ?_,
    fun hlt => ?_, fun heq => ?_⟩
  · refine (List.perm_append_singleton e _).symm.trans ?_
    rw [List.dropLast_append_getLast? e hend]
    exact exchange_perm hil hpos
  · rw [hlen] at hj
    rw [hdrop j hj, Equiv.swap_apply_of_ne_of_ne hji hj.ne]
  · rw [hlen] at hlt
    rw [hdrop i hlt, Equiv.swap_apply_left, hlast]
  · rw [hlen] at heq
    rw [← heq, hi, Option.some_inj] at hlast
    exact hlast.symm

/-- The node at `i` is replaced by the last one, which finds its place. -/
theorem HeapOf.replace (h : HeapOf t s l) (hi : l[i]? = some e) :
    ∃ last s₁ s' l', s.takeLast = some (last, s₁) ∧ s₁.settle i last = some s' ∧
      (e :: l').Perm l ∧ Around t s' l'.length l' ∧ Ordered (keys t l') l'.length ∧
      s'.n = l'.length ∧ (∀ a, s'.timeout a = s.timeout a) ∧
      ∀ a, a ∉ l → s'.nodes.lookup a = s.nodes.lookup a := by
  have hil := Holds.lt_length hi
  obtain ⟨last, l₁, hlast, hperm, hlen, hsame, hat, hend⟩ := exists_replaced hi
  set s₁ : MinHeap := { s with n := s.n - 1 }
  have hcount : s.n = l.length := h.count
  have htake : s.takeLast = some (last, s₁) := by
    rw [takeLast, if_neg (by omega), h.entry_eq (by rw [hcount]; exact hlast)]
    rfl
  have hnodup : (e :: l₁).Nodup := hperm.nodup_iff.mpr h.nodup
  have hn : s₁.n = l₁.length := by rw [hlen, ← hcount]
  have hmem : ∀ a ∈ l₁, a ∈ l := fun a ha => hperm.subset (List.mem_cons_of_mem e ha)
  have haround : Around t s₁ i l₁ := by
    refine ⟨?_, hnodup.of_cons, fun a ha => h.timeout a (hmem a ha), fun j a hj hji => ?_⟩
    · have := h.length_le
      show l₁.length ≤ s.p.length
      omega
    · rw [hsame j (Holds.lt_length hj) hji] at hj
      exact ⟨h.entry_eq hj, h.idx_eq hj⟩
  have hkeys : ∀ j, j < l₁.length → j ≠ i → keys t l₁ j = keys t l j := fun j hj hji => by
    rw [keys, keys, hsame j hj hji]
  have hord : Ordered (keys t l) l₁.length := fun j h₀ hj => h.ordered j h₀ (by omega)
  by_cases hlt : i < l₁.length
  · obtain ⟨s', l', hs', hl', haround', halike, hord'⟩ :=
      settle_spec hn haround (hat hlt) (hord.loose hkeys)
    have hperm' : (e :: l').Perm l := (hl'.cons e).trans hperm
    refine ⟨last, s₁, s', l', htake, hs', hperm', haround', hord', ?_, halike.timeout_eq,
      fun a ha => halike.lookup_eq a fun hin => ha (hmem a hin)⟩
    rw [halike.n_eq, hn, hl'.length_eq]
  · have heq : i = l₁.length := by omega
    obtain rfl := hend heq
    subst heq
    obtain ⟨s', hs', haround', halike⟩ := settle_end haround hn (List.nodup_cons.mp hnodup).1
      (by
        have := h.length_le
        show l₁.length < s.p.length
        omega)
      (h.timeout last (List.mem_of_getElem? hi))
      (fun a hpos ha => by
        have hpar := parent_lt hpos
        rw [hsame _ hpar hpar.ne] at ha
        have hle := h.ordered l₁.length hpos hil
        rwa [keys_of_getElem? ha, keys_of_getElem? hi] at hle)
    refine ⟨last, s₁, s', l₁, htake, hs', hperm, haround', fun j h₀ hj => ?_, ?_,
      halike.timeout_eq, fun a ha => halike.lookup_eq a fun hin => ha (hperm.subset hin)⟩
    · have hlt' := parent_lt h₀
      rw [hkeys j hj hj.ne, hkeys (parent j) (hlt'.trans hj) (hlt'.trans hj).ne]
      exact hord j h₀ hj
    · rw [halike.n_eq, hn]

/-- The node that was taken out is marked. -/
theorem HeapOf.unmark (h : HeapOf t s l) (haround : Around t s₁ l'.length l')
    (hord : Ordered (keys t l') l'.length) (hcount : s₁.n = l'.length) (hperm : (e :: l').Perm l)
    (htimeout : ∀ a, s₁.timeout a = s.timeout a)
    (hlookup : ∀ a, a ∉ l → s₁.nodes.lookup a = s.nodes.lookup a) :
    ∃ s', s₁.setIdx e (-1) = some s' ∧ HeapOf t s' l' ∧
      (∀ a, s'.timeout a = s.timeout a) ∧
      ∀ a, a ∉ l → s'.nodes.lookup a = s.nodes.lookup a := by
  have he : e ∈ l := hperm.subset List.mem_cons_self
  have hnot : e ∉ l' := (List.nodup_cons.mp (hperm.nodup_iff.mpr h.nodup)).1
  obtain ⟨s', hs', hp, hn, htimeout', hidx, hrest⟩ :=
    exists_setIdx ((htimeout e).trans (h.timeout e he)) (-1)
  have hlookup' : ∀ a, a ∉ l → s'.nodes.lookup a = s.nodes.lookup a := fun a ha =>
    (hrest a fun heq => ha (heq ▸ he)).trans (hlookup a ha)
  refine ⟨s', hs', ⟨⟨⟨?_, haround.nodup, fun a ha => ?_, fun i a hi hne => ?_⟩, ?_,
    fun a node ha hna => ?_⟩, hord⟩, fun a => (htimeout' a).trans (htimeout a), hlookup'⟩
  · rw [hp]
    exact haround.length_le
  · rw [htimeout']
    exact haround.timeout a ha
  · obtain ⟨hentry, hseat⟩ := haround.seat i a hi hne
    have hae : a ≠ e := by
      rintro rfl
      exact hnot (List.mem_of_getElem? hi)
    refine ⟨by rw [entry, hp]; exact hentry, ?_⟩
    rw [idx, hrest a hae]
    exact hseat
  · rw [hn, hcount]
  · by_cases hae : a = e
    · subst hae
      rw [idx, ha, Option.map_some, Option.some_inj] at hidx
      exact hidx
    · have hal : a ∉ l := fun hin =>
        (List.mem_cons.mp (hperm.symm.subset hin)).elim hae hna
      rw [hlookup' a hal] at ha
      exact h.outside a node ha hal

theorem HeapOf.erase (h : HeapOf t s l) (he : e ∈ l) :
    ∃ s' l', s.erase e = some (0, s') ∧ (e :: l').Perm l ∧ HeapOf t s' l' ∧
      (∀ a, s'.timeout a = s.timeout a) ∧
      ∀ a, a ∉ l → s'.nodes.lookup a = s.nodes.lookup a := by
  obtain ⟨i, hi⟩ := List.mem_iff_getElem?.mp he
  obtain ⟨last, s₁, s₂, l', htake, hsettle, hperm, haround, hord, hcount, htimeout, hlookup⟩ :=
    h.replace hi
  obtain ⟨s', hs', hheap, hframe⟩ := h.unmark haround hord hcount hperm htimeout hlookup
  refine ⟨s', l', ?_, hperm, hheap, hframe⟩
  have hne : (i : ℤ) ≠ -1 := by omega
  simp only [MinHeap.erase, h.idx_eq hi, htake, hsettle, hs', hne, Option.bind_eq_bind,
    Option.bind_some, Int.toNat_natCast, ne_eq, not_false_eq_true, if_true]
  rfl

theorem Holds.erase_notMem (h : Holds t s l) {x : ℤ} (hx : s.timeout e = some x) (he : e ∉ l) :
    s.erase e = some (-1, s) := by
  rw [MinHeap.erase, h.idx_of_notMem hx he]
  rfl

theorem HeapOf.pop (h : HeapOf t s l) (hi : l[0]? = some e) :
    ∃ s' l', s.pop = some (some e, s') ∧ (e :: l').Perm l ∧ HeapOf t s' l' ∧
      (∀ a, s'.timeout a = s.timeout a) ∧
      ∀ a, a ∉ l → s'.nodes.lookup a = s.nodes.lookup a := by
  obtain ⟨last, s₁, s₂, l', htake, hsettle, hperm, haround, hord, hcount, htimeout, hlookup⟩ :=
    h.replace hi
  obtain ⟨s', hs', hheap, hframe⟩ := h.unmark haround hord hcount hperm htimeout hlookup
  have hdown : s₁.shiftDown 0 last = some s₂ := hsettle
  have hpos : s.n ≠ 0 := by
    have := Holds.lt_length hi
    rw [h.count]
    omega
  refine ⟨s', l', ?_, hperm, hheap, hframe⟩
  simp only [MinHeap.pop, if_pos hpos, h.entry_eq hi, htake, hdown, hs', Option.bind_eq_bind,
    Option.bind_some]
  rfl

/-- The node at the top has the least timeout. -/
theorem HeapOf.top_le (h : HeapOf t s l) (hi : l[0]? = some e) {a : Addr} (ha : a ∈ l) :
    t e ≤ t a := by
  obtain ⟨j, hj⟩ := List.mem_iff_getElem?.mp ha
  have hle := h.ordered.top_le (Holds.lt_length hj)
  rwa [keys_of_getElem? hi, keys_of_getElem? hj] at hle

/-! ## A new timeout -/

/-- The timeout of a node of the heap has changed. -/
theorem Holds.adjust (h : Holds t s l) (hi : l[i]? = some e)
    (hloose : Loose (keys t l) l.length i) :
    ∃ s' l', s.adjust e = some s' ∧ l'.Perm l ∧ HeapOf t s' l' ∧
      (∀ a, s'.timeout a = s.timeout a) ∧
      ∀ a, a ∉ l → s'.nodes.lookup a = s.nodes.lookup a := by
  have haround : Around t s i l :=
    { h.toAround with seat := fun j a hj _ => ⟨h.entry_eq hj, h.idx_eq hj⟩ }
  obtain ⟨s', l', hs', hl', haround', halike, hord⟩ := settle_spec h.count haround hi hloose
  refine ⟨s', l', ?_, hl', ⟨⟨haround', ?_, fun a node ha hna => ?_⟩, hord⟩, halike.timeout_eq,
    halike.lookup_eq⟩
  · rw [MinHeap.adjust, h.idx_eq hi, Option.bind_eq_bind, Option.bind_some, if_neg (by omega),
      Int.toNat_natCast, hs']
  · rw [halike.n_eq, h.count, hl'.length_eq]
  · have hal : a ∉ l := hl'.mem_iff.not.mp hna
    rw [halike.lookup_eq a hal] at ha
    exact h.outside a node ha hal

end CodeTest.UvLua.MinHeap
