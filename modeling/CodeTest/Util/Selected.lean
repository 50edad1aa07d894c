import CodeTest.Util.GetTop

/-!
# The first elements are selected

`getTop` against its purpose: the array is permuted, and what is returned are `min k n` of its
elements such that none of the others comes before one of them, in order when that is asked for
(`getTop_selects`).

All loops work on the keys of a heap with the last element on top. While the heap is built, the
positions not yet reached count as least keys, so that one order of the library, on all positions,
says what holds at every stage.
-/

namespace CodeTest.GetTop

open BinaryHeap

variable {α : Type} {compareFunc : α → α → Bool} {arr arr' : List α} {s n k p c i j : ℕ}

/-! ## The tests of `heapify` -/

theorem before_eq (hi : i < arr.length) (hj : j < arr.length) :
    before compareFunc arr (i + 1) (j + 1) = some (compareFunc arr[i] arr[j]) := by
  simp [before, at?, hi, hj]

variable (compareFunc) in
/-- What one test makes of `smallest`, in positions that count from 0. -/
theorem pickChild_spec (hn : n ≤ arr.length) (hi : i < arr.length) (c : ℕ) :
    ∃ m, pickChild compareFunc arr n (i + 1) (c + 1) = some (m + 1) ∧
      (m = i ∧ (∀ hc : c < n, ¬ compareFunc arr[i] arr[c]) ∨
        m = c ∧ ∃ hc : c < n, compareFunc arr[i] arr[c]) := by
  unfold pickChild
  split_ifs with hc
  · have hc : c < n := hc
    rw [before_eq hi (by omega), Option.map_some]
    by_cases hlt : compareFunc arr[i] arr[c]
    · exact ⟨c, by rw [if_pos hlt], .inr ⟨rfl, hc, hlt⟩⟩
    · exact ⟨i, by rw [if_neg hlt], .inl ⟨rfl, fun _ => hlt⟩⟩
  · exact ⟨i, rfl, .inl ⟨rfl, fun hc' => absurd hc' hc⟩⟩

theorem heapify_of_stop (h : pickSmallest compareFunc arr i n = some i) :
    heapify compareFunc arr i n = some arr := by
  rw [heapify]
  split <;> simp_all

theorem heapify_of_pick (h : pickSmallest compareFunc arr i n = some c) (hne : c ≠ i) :
    heapify compareFunc arr i n = heapify compareFunc (swap arr i c) c n := by
  rw [heapify]
  split <;> simp_all

/-! ## The keys of the heap -/

/-- The keys of the heap from the position `s` on; the positions before it have the least key. -/
def keys (compareFunc : α → α → Bool) (s : ℕ) (arr : List α) (i : ℕ) :
    WithBot (Descending fun a b => compareFunc a b = true) :=
  if i < s then ⊥ else (arr[i]?).elim ⊥ fun a => WithBot.some (Descending.of _ a)

theorem keys_of_lt (h : i < s) : keys compareFunc s arr i = ⊥ := if_pos h

theorem keys_congr (h : arr'[i]? = arr[i]?) :
    keys compareFunc s arr' i = keys compareFunc s arr i := by
  rw [keys, keys, h]

theorem keys_exchange (hp : p < arr.length) (hc : c < arr.length) (hsp : s ≤ p) (hsc : s ≤ c) :
    keys compareFunc s (exchange arr p c) = keys compareFunc s arr ∘ Equiv.swap p c := by
  funext i
  have hswap : Equiv.swap p c i < s ↔ i < s := by
    rw [Equiv.swap_apply_def]
    split_ifs <;> omega
  simp only [keys, Function.comp_apply, getElem?_exchange hp hc, hswap]

variable [IsStrictWeakOrder α fun a b => compareFunc a b = true]

/-- A key is not above another one when its element is not before the other's. -/
theorem keys_le_iff (hi : i < arr.length) (hj : j < arr.length) (hsi : s ≤ i) (hsj : s ≤ j) :
    keys compareFunc s arr i ≤ keys compareFunc s arr j ↔ ¬ compareFunc arr[i] arr[j] := by
  rw [keys, keys, if_neg (by omega), if_neg (by omega), List.getElem?_eq_getElem hi,
    List.getElem?_eq_getElem hj]
  exact WithBot.coe_le_coe.trans Descending.of_le_of

/-- The key of an element that comes after another one is below the other's. -/
theorem keys_le_of_before (hi : i < arr.length) (hj : j < arr.length) (hsi : s ≤ i) (hsj : s ≤ j)
    (h : compareFunc arr[i] arr[j]) : keys compareFunc s arr j ≤ keys compareFunc s arr i :=
  (keys_le_iff hj hi hsj hsi).mpr (asymm_of (fun a b => compareFunc a b = true) h)

variable (compareFunc) in
/-- `heapify` stays where no child comes later, or goes to a child that comes last. -/
theorem pickSmallest_spec (hn : n ≤ arr.length) (hp : p < arr.length) (hsp : s ≤ p) :
    ∃ c, pickSmallest compareFunc arr (p + 1) n = some (c + 1) ∧
      (∀ i, IsChild n p i → keys compareFunc s arr c ≤ keys compareFunc s arr i) ∧
      (c = p ∨ IsChild n p c ∧ keys compareFunc s arr c ≤ keys compareFunc s arr p) := by
  obtain ⟨l, hl, hleft⟩ := pickChild_spec compareFunc hn hp (2 * p + 1)
  have hlp : l < arr.length ∧ s ≤ l := by
    rcases hleft with ⟨rfl, -⟩ | ⟨rfl, h, -⟩ <;> omega
  obtain ⟨c, hc, hright⟩ := pickChild_spec compareFunc hn hlp.1 (2 * p + 2)
  -- the chosen position after each test has a key below the ones it was compared with
  have hleft_le : keys compareFunc s arr l ≤ keys compareFunc s arr p ∧
      (2 * p + 1 < n → keys compareFunc s arr l ≤ keys compareFunc s arr (2 * p + 1)) := by
    rcases hleft with ⟨rfl, h⟩ | ⟨rfl, hln, h⟩
    · exact ⟨le_rfl, fun hln =>
        (keys_le_iff hp (by omega) hsp (by omega)).mpr (h hln)⟩
    · exact ⟨keys_le_of_before hp hlp.1 hsp hlp.2 h, fun _ => le_rfl⟩
  have hright_le : keys compareFunc s arr c ≤ keys compareFunc s arr l ∧
      (2 * p + 2 < n → keys compareFunc s arr c ≤ keys compareFunc s arr (2 * p + 2)) := by
    rcases hright with ⟨rfl, h⟩ | ⟨rfl, hrn, h⟩
    · exact ⟨le_rfl, fun hrn =>
        (keys_le_iff hlp.1 (by omega) hlp.2 (by omega)).mpr (h hrn)⟩
    · exact ⟨keys_le_of_before hlp.1 (by omega) hlp.2 (by omega) h, fun _ => le_rfl⟩
  refine ⟨c, ?_, ?_, ?_⟩
  · rw [pickSmallest, show 2 * (p + 1) = 2 * p + 1 + 1 by ring, hl]
    exact hc
  · intro i hi
    obtain ⟨hin, rfl | rfl⟩ := isChild_iff.mp hi
    · rw [Nat.mul_comm]
      exact hright_le.1.trans (hleft_le.2 (by omega))
    · rw [Nat.mul_comm]
      exact hright_le.2 (by omega)
  · have hcp := hright_le.1.trans hleft_le.1
    by_cases hne : c = p
    · exact .inl hne
    · refine .inr ⟨isChild_iff.mpr ?_, hcp⟩
      rcases hright with ⟨rfl, -⟩ | ⟨rfl, hrn, -⟩
      · rcases hleft with ⟨rfl, -⟩ | ⟨rfl, hln, -⟩
        · exact absurd rfl hne
        · exact ⟨hln, .inl (by ring)⟩
      · exact ⟨hrn, .inr (by ring)⟩

/-- `heapify` brings the heap in order below the position it is called for. -/
theorem heapify_spec (hn : n ≤ arr.length) (hp : p < arr.length) (hsp : s ≤ p)
    (h : DownFrom (keys compareFunc s arr) n p) :
    ∃ arr', heapify compareFunc arr (p + 1) n = some arr' ∧ Shuffled n arr arr' ∧
      Ordered (keys compareFunc s arr') n := by
  induction hd : n - p using Nat.strong_induction_on generalizing arr p with
  | _ d ih =>
    obtain ⟨c, hpick, hmin, rfl | ⟨hc, hle⟩⟩ := pickSmallest_spec compareFunc hn hp hsp
    · exact ⟨arr, heapify_of_stop hpick, .refl n arr, h.ordered hmin⟩
    · obtain ⟨hc₀, hcn, hpc⟩ := hc
      have hpc' := parent_lt hc₀
      rw [hpc] at hpc'
      have hdown := h.loose.swap ⟨hc₀, hcn, hpc⟩ hle hmin
      rw [← keys_exchange (by omega) (by omega) hsp (by omega)] at hdown
      have hshuffled := shuffled_exchange hn (i := p) (j := c) (by omega) hcn
      obtain ⟨arr', heq, hshuffled', hord⟩ := ih (n - c) (by omega)
        (by rw [length_exchange]; exact hn) (by rw [length_exchange]; omega) (by omega) hdown rfl
      refine ⟨arr', ?_, hshuffled.trans hshuffled', hord⟩
      rw [heapify_of_pick hpick (by omega)]
      exact heq

/-! ## Building the heap -/

/-- One position more is taken in: the order may fail below it only. -/
theorem downFrom_of_ordered_succ (h : Ordered (keys compareFunc (i + 1) arr) k) :
    DownFrom (keys compareFunc i arr) k i := by
  constructor
  · intro j h₀ hjk hji
    have hj := parent_lt h₀
    by_cases hlt : parent j < i
    · rw [keys_of_lt hlt]
      exact bot_le
    · have := h j h₀ hjk
      simp only [keys] at this ⊢
      rwa [if_neg (by omega), if_neg (by omega)] at this ⊢
  · intro hi j _
    rw [keys_of_lt (parent_lt hi)]
    exact bot_le

theorem buildLoop_spec (hk : k ≤ arr.length) (hi : i ≤ k)
    (h : Ordered (keys compareFunc i arr) k) :
    ∃ arr', buildLoop compareFunc k i arr = some arr' ∧ Shuffled k arr arr' ∧
      Ordered (keys compareFunc 0 arr') k := by
  induction i generalizing arr with
  | zero => exact ⟨arr, rfl, .refl k arr, h⟩
  | succ i ih =>
    obtain ⟨arr₁, heq₁, hsh₁, hord₁⟩ :=
      heapify_spec hk (by omega) (Nat.le_refl i) (downFrom_of_ordered_succ h)
    obtain ⟨arr', heq, hsh, hord⟩ := ih (by rw [hsh₁.length_eq]; exact hk) (by omega) hord₁
    exact ⟨arr', by rw [buildLoop, heq₁]; exact heq, hsh₁.trans hsh, hord⟩

variable (compareFunc) in
/-- No position has children from `k / 2` on. -/
theorem ordered_half (k : ℕ) (arr : List α) :
    Ordered (keys compareFunc (k / 2) arr) k := by
  intro j h₀ hjk
  rw [keys_of_lt (by unfold parent; omega)]
  exact bot_le

/-! ## Streaming the rest past the top -/

/-- No element of the heap comes after its top. -/
theorem not_before_of_mem_take (hk : k ≤ arr.length) (h : Ordered (keys compareFunc 0 arr) k)
    (h₀ : 0 < arr.length) {y : α} (hy : y ∈ arr.take k) : ¬ compareFunc arr[0] y := by
  obtain ⟨j, hj, rfl⟩ := List.mem_take_iff_getElem.mp hy
  exact (keys_le_iff h₀ (by omega) (Nat.le_refl 0) (Nat.zero_le j)).mp (h.top_le (by omega))

/-- An element put on top of the heap leaves a sift down to do. -/
theorem downFrom_of_top (h : Ordered (keys compareFunc 0 arr) n)
    (hrest : ∀ j, j < n → j ≠ 0 → arr'[j]? = arr[j]?) :
    DownFrom (keys compareFunc 0 arr') n 0 :=
  (h.loose fun j hj hne => keys_congr (hrest j hj hne)).downFrom

/-- No element at the positions from `k` to `q` comes before one of the first `k`. -/
def Outside (compareFunc : α → α → Bool) (k q : ℕ) (arr : List α) : Prop :=
  ∀ m x, k ≤ m → m < q → arr[m]? = some x → ∀ y ∈ arr.take k, ¬ compareFunc x y

omit [IsStrictWeakOrder α fun a b => compareFunc a b = true] in
theorem mem_take_exchange {q : ℕ} (hq : q < arr.length) (hkq : k ≤ q) {y : α}
    (hy : y ∈ (exchange arr q 0).take k) : y = arr[q] ∨ y ∈ arr.take k := by
  obtain ⟨j, hj, rfl⟩ := List.mem_take_iff_getElem.mp hy
  rw [length_exchange] at hj
  have hget := getElem?_exchange hq (Nat.zero_lt_of_lt hq) j
  rw [List.getElem?_eq_getElem (by rw [length_exchange]; omega), Equiv.swap_apply_def,
    if_neg (by omega)] at hget
  split_ifs at hget with h₀
  · rw [List.getElem?_eq_getElem hq] at hget
    exact .inl (Option.some.inj hget)
  · rw [List.getElem?_eq_getElem (by omega)] at hget
    refine .inr (List.mem_take_iff_getElem.mpr ⟨j, by omega, ?_⟩)
    exact (Option.some.inj hget).symm

/-- A round that leaves the array as it is: its element is not before the top. -/
theorem Outside.keep {q : ℕ} (h : Outside compareFunc k q arr) (hq : q < arr.length)
    (h₀ : 0 < arr.length) (hkq : k ≤ q) (hord : Ordered (keys compareFunc 0 arr) k)
    (hkeep : ¬ compareFunc arr[q] arr[0]) : Outside compareFunc k (q + 1) arr := by
  intro m x hkm hmq hx y hy
  by_cases hm : m = q
  · subst hm
    rw [List.getElem?_eq_getElem hq, Option.some.injEq] at hx
    subst hx
    exact not_before_trans (r := fun a b => compareFunc a b = true) hkeep
      (not_before_of_mem_take (by omega) hord (by omega) hy)
  · exact h m x hkm (by omega) hx y hy

/-- A round that takes the element in and puts the old top out. -/
theorem Outside.take {q : ℕ} (h : Outside compareFunc k q arr) (hq : q < arr.length)
    (h₀ : 0 < arr.length) (hkq : k ≤ q) (hord : Ordered (keys compareFunc 0 arr) k)
    (htake : compareFunc arr[q] arr[0])
    (hsh : Shuffled k (exchange arr q 0) arr') : Outside compareFunc k (q + 1) arr' := by
  intro m x hkm hmq hx y hy
  rcases Nat.eq_zero_or_pos k with rfl | hk₀
  · exact absurd hy List.not_mem_nil
  have htop : ∀ z ∈ arr.take k, ¬ compareFunc arr[0] z := fun z hz =>
    not_before_of_mem_take (by omega) hord (by omega) hz
  have hnew : ∀ x : α, ¬ compareFunc x arr[0] → ¬ compareFunc x arr[q] :=
    fun x hx hxq => hx (trans_of (fun a b => compareFunc a b = true) hxq htake)
  have hy := mem_take_exchange hq hkq (hsh.perm.mem_iff.mp hy)
  rw [hsh.getElem?_eq hkm, getElem?_exchange hq (by omega), Equiv.swap_apply_def,
    if_neg (c := m = 0) (by omega)] at hx
  split_ifs at hx with hm
  · rw [List.getElem?_eq_getElem (by omega), Option.some.injEq] at hx
    subst hx
    rcases hy with rfl | hy
    · exact hnew _ (irrefl_of (fun a b => compareFunc a b = true) _)
    · exact htop y hy
  · have hx := h m x hkm (by omega) hx
    rcases hy with rfl | hy
    · refine hnew x (hx _ (List.mem_take_iff_getElem.mpr ⟨0, by omega, rfl⟩))
    · exact hx y hy

theorem streamLoop_spec {left q : ℕ} (hlen : q + left = arr.length) (hkq : k ≤ q)
    (hord : Ordered (keys compareFunc 0 arr) k) (hout : Outside compareFunc k q arr) :
    ∃ arr', streamLoop compareFunc k left (q + 1) arr = some arr' ∧ arr'.Perm arr ∧
      Ordered (keys compareFunc 0 arr') k ∧ Outside compareFunc k arr.length arr' := by
  induction left generalizing q arr with
  | zero =>
    rw [Nat.add_zero] at hlen
    exact ⟨arr, rfl, .refl arr, hord, hlen ▸ hout⟩
  | succ left ih =>
    have hq : q < arr.length := by omega
    have h₀ : 0 < arr.length := by omega
    rw [streamLoop, before_eq (i := q) (j := 0) hq h₀]
    by_cases hlt : compareFunc arr[q] arr[0]
    · have hrest : ∀ j, j < k → j ≠ 0 → (exchange arr q 0)[j]? = arr[j]? := by
        intro j hj hne
        rw [getElem?_exchange hq h₀, Equiv.swap_apply_def, if_neg (by omega), if_neg hne]
      have hdown := downFrom_of_top hord hrest
      obtain ⟨arr₁, heq₁, hsh, hord₁⟩ := heapify_spec (by rw [length_exchange]; omega)
        (by rw [length_exchange]; exact h₀) (Nat.le_refl 0) hdown
      have hperm := hsh.perm_all.trans (exchange_perm hq h₀)
      obtain ⟨arr', heq, hperm', hord', hout'⟩ := ih (by rw [hperm.length_eq]; omega)
        (Nat.le_succ_of_le hkq) hord₁ (hout.take hq h₀ hkq hord hlt hsh)
      rw [hperm.length_eq] at hout'
      refine ⟨arr', ?_, hperm'.trans hperm, hord', hout'⟩
      simp only [hlt, swap, Nat.add_sub_cancel, Nat.sub_self, heq₁, Option.bind_some, heq]
    · simp only [hlt]
      exact ih (by omega) (Nat.le_succ_of_le hkq) hord (hout.keep hq h₀ hkq hord hlt)

/-! ## Sorting what is left -/

/-- The loop takes the first `i` positions in order and puts them before `heap`. -/
theorem sortLoop_spec {heap : List α} (hi : i ≤ arr.length)
    (hord : Ordered (keys compareFunc 0 arr) i)
    (hheap : heap.Pairwise fun a b => ¬ compareFunc b a)
    (hlast : ∀ y ∈ arr.take i, ∀ z ∈ heap, ¬ compareFunc z y) :
    ∃ arr', sortLoop compareFunc i arr heap = some (arr'.take i ++ heap, arr') ∧
      Shuffled i arr arr' ∧ (arr'.take i ++ heap).Pairwise fun a b => ¬ compareFunc b a := by
  induction i generalizing arr heap with
  | zero => exact ⟨arr, rfl, .refl 0 arr, hheap⟩
  | succ i ih =>
    have h₀ : 0 < arr.length := by omega
    have htop : ∀ y ∈ arr.take (i + 1), ¬ compareFunc arr[0] y := fun y hy =>
      not_before_of_mem_take hi hord h₀ hy
    have hrest : ∀ j, j < i → j ≠ 0 → (exchange arr i 0)[j]? = arr[j]? := by
      intro j hj hne
      rw [getElem?_exchange (by omega) h₀, Equiv.swap_apply_def, if_neg (by omega), if_neg hne]
    have hdown := downFrom_of_top (fun j hj₀ hji => hord j hj₀ (by omega)) hrest
    have hsh₁ := shuffled_exchange hi (Nat.lt_succ_self i) (Nat.succ_pos i)
    obtain ⟨arr₂, heq₂, hsh₂, hord₂⟩ := heapify_spec (by rw [length_exchange]; omega)
      (by rw [length_exchange]; exact h₀) (Nat.le_refl 0) hdown
    have hsh := hsh₁.trans (hsh₂.mono (Nat.le_succ i))
    have hsub : ∀ y ∈ arr₂.take i, y ∈ arr.take (i + 1) := fun y hy =>
      hsh.perm.mem_iff.mp (List.take_subset_take_left arr₂ (Nat.le_succ i) hy)
    have hmem₀ : arr[0] ∈ arr.take (i + 1) := List.mem_take_iff_getElem.mpr ⟨0, by omega, rfl⟩
    have hlast' : ∀ y ∈ arr₂.take i, ∀ z ∈ arr[0] :: heap, ¬ compareFunc z y := by
      intro y hy z hz
      rcases List.mem_cons.mp hz with rfl | hz
      · exact htop y (hsub y hy)
      · exact hlast y (hsub y hy) z hz
    obtain ⟨arr', heq, hsh', hsorted⟩ := ih (by rw [hsh.length_eq]; omega) hord₂
      (List.pairwise_cons.mpr ⟨fun z hz => hlast _ hmem₀ z hz, hheap⟩) hlast'
    have hget : arr'[i]? = some arr[0] := by
      rw [hsh'.getElem?_eq (Nat.le_refl i), hsh₂.getElem?_eq (Nat.le_refl i),
        getElem?_exchange (by omega) h₀, Equiv.swap_apply_left, List.getElem?_eq_getElem h₀]
    have htake : arr'.take (i + 1) ++ heap = arr'.take i ++ arr[0] :: heap := by
      rw [List.take_add_one, hget, List.append_assoc]
      rfl
    refine ⟨arr', ?_, hsh.trans (hsh'.mono (Nat.le_succ i)), by rwa [htake]⟩
    have hat : at? arr 1 = some arr[0] := List.getElem?_eq_getElem h₀
    rw [sortLoop, hat]
    simp only [swap, Nat.add_sub_cancel, Nat.sub_self, heq₂, Option.bind_some, heq, htake]

/-! ## The whole function -/

omit [IsStrictWeakOrder α fun a b => compareFunc a b = true] in
/-- The first `k` positions against the others, in whatever order they are. -/
theorem Outside.drop {q : ℕ} (h : Outside compareFunc k q arr) (hq : arr.length ≤ q)
    (hsh : Shuffled k arr arr') :
    ∀ x ∈ arr'.drop k, ∀ y ∈ arr'.take k, ¬ compareFunc x y := by
  intro x hx y hy
  rw [hsh.rest] at hx
  obtain ⟨m, hm, rfl⟩ := List.mem_drop_iff_getElem.mp hx
  exact h (k + m) _ (Nat.le_add_right k m) (by omega) (List.getElem?_eq_getElem (by omega)) y
    (hsh.perm.mem_iff.mp hy)

/-- **`getTop` selects the first `k`.** For every array, every `k` and every strict weak order,
`getTop` comes to an end with a list `heap`. The array is then a permutation of what it was, `heap`
is of the size `min k n`, together with the `others` it is the array, none of the `others` comes
before an element of `heap`, and if it was to be sorted, no element of `heap` comes before an
earlier one. -/
theorem getTop_selects (compareFunc : α → α → Bool)
    [IsStrictWeakOrder α fun a b => compareFunc a b = true] (arr : List α) (k : ℕ)
    (bSorted : Bool) :
    ∃ heap arr', getTop compareFunc arr k bSorted = some (heap, arr') ∧ arr'.Perm arr ∧
      heap.length = min k arr.length ∧
      (∃ others, (heap ++ others).Perm arr ∧
        ∀ x ∈ others, ∀ y ∈ heap, ¬ compareFunc x y) ∧
      (bSorted = true → heap.Pairwise fun a b => ¬ compareFunc b a) := by
  have hmin : (if arr.length > k then k else arr.length) = min k arr.length := by
    split_ifs <;> omega
  have hk : min k arr.length ≤ arr.length := Nat.min_le_right k arr.length
  rw [getTop, hmin]
  generalize min k arr.length = k at hk
  obtain ⟨arr₁, heq₁, hsh₁, hord₁⟩ := buildLoop_spec hk (Nat.div_le_self k 2)
    (ordered_half compareFunc k arr)
  have hlen₁ := hsh₁.length_eq
  have hrest : k + (arr.length - k) = arr₁.length := by omega
  obtain ⟨arr₂, heq₂, hperm₂, hord₂, hout₂⟩ := streamLoop_spec hrest (Nat.le_refl k) hord₁
    fun m x hkm hmk => absurd hkm (by omega)
  have hlen₂ := hperm₂.length_eq
  have hperm := hperm₂.trans hsh₁.perm_all
  have hselected : ∀ arr', Shuffled k arr₂ arr' → arr'.Perm arr ∧ (arr'.take k).length = k ∧
      ∃ others, (arr'.take k ++ others).Perm arr ∧
        ∀ x ∈ others, ∀ y ∈ arr'.take k, ¬ compareFunc x y := by
    intro arr' hsh
    have hperm' := hsh.perm_all.trans hperm
    refine ⟨hperm', ?_, arr'.drop k, ?_, hout₂.drop (by omega) hsh⟩
    · rw [List.length_take, hperm'.length_eq, Nat.min_eq_left hk]
    · rw [List.take_append_drop]
      exact hperm'
  cases bSorted with
  | false =>
    obtain ⟨hp, hl, ho⟩ := hselected arr₂ (.refl k arr₂)
    refine ⟨_, _, ?_, hp, hl, ho, fun h => absurd h Bool.false_ne_true⟩
    simp [heq₁, heq₂]
  | true =>
    have hnil : ∀ y ∈ arr₂.take k, ∀ z ∈ ([] : List α), ¬ compareFunc z y :=
      fun y _ z hz => absurd hz List.not_mem_nil
    obtain ⟨arr₃, heq₃, hsh₃, hsorted⟩ := sortLoop_spec (by omega) hord₂ .nil hnil
    rw [List.append_nil] at heq₃ hsorted
    obtain ⟨hp, hl, ho⟩ := hselected arr₃ hsh₃
    refine ⟨_, _, ?_, hp, hl, ho, fun _ => hsorted⟩
    simp [heq₁, heq₂, heq₃]

instance decideLtStrictWeak : IsStrictWeakOrder ℕ fun a b => decide (a < b) = true where
  irrefl a := by simp
  trans a b c := by simpa using Nat.lt_trans
  incomp_trans a b c := by simp only [decide_eq_true_eq]; omega

/-- The first three of seven numbers, with a tie. -/
theorem getTop_selects_three :
    ∃ heap arr', getTop (fun a b : ℕ => decide (a < b)) [5, 3, 8, 1, 9, 3, 7] 3 true =
        some (heap, arr') ∧ arr'.Perm [5, 3, 8, 1, 9, 3, 7] ∧
      heap.length = min 3 [5, 3, 8, 1, 9, 3, 7].length ∧
      (∃ others, (heap ++ others).Perm [5, 3, 8, 1, 9, 3, 7] ∧
        ∀ x ∈ others, ∀ y ∈ heap, ¬ decide (x < y) = true) ∧
      (true = true → heap.Pairwise fun a b => ¬ decide (b < a) = true) :=
  getTop_selects (fun a b : ℕ => decide (a < b)) _ 3 true

end CodeTest.GetTop
