import CodeTest.CppNet.PoolLayout

/-!
# The pool allocator and its clients

In every run in which clients write to their own blocks only, any two blocks of clients have no byte
in common, and the allocator changes nothing in them (`apart_of_run`). The free lists lie in the
blocks that are free, so this needs that the pointers in them are right, and that needs in turn that
nobody else writes there: `Sound` says both together.
-/

namespace CodeTest.CppNet

open Region PoolAlloter

/-! ## Sizes -/

section Sizes

variable {size : UInt32}

theorem alignUp_toNat (h : size.toNat ≤ 256) : (alignUp size).toNat = wholeWords size.toNat := by
  have hall : ∀ n : Fin 257, (alignUp (UInt32.ofNat n)).toNat = wholeWords n := by decide +kernel
  have := hall ⟨size.toNat, Nat.lt_succ_of_le h⟩
  rwa [UInt32.ofNat_toNat] at this

theorem freeListIndex_toNat (hpos : 0 < size.toNat) (h : size.toNat ≤ 256) :
    (freeListIndex size).toNat = classOf size.toNat := by
  have hall : ∀ n : Fin 257, 0 < n.1 → (freeListIndex (UInt32.ofNat n)).toNat = classOf n := by
    decide +kernel
  have := hall ⟨size.toNat, Nat.lt_succ_of_le h⟩ hpos
  rwa [UInt32.ofNat_toNat] at this

theorem le_defaultMaxBytes : size ≤ defaultMaxBytes ↔ size.toNat ≤ 256 := UInt32.le_iff_toNat_le

theorem classOf_lt {n : ℕ} (h : n ≤ 256) : classOf n < 32 := by
  unfold classOf
  omega

end Sizes

/-! ## Lists -/

/-- The free blocks of a list. -/
def blocksOf (frees : List (ℕ × ℕ)) (i : ℕ) : List ℕ := (frees.filter fun x => x.1 = i).map Prod.snd

theorem mem_blocksOf {frees : List (ℕ × ℕ)} {i p : ℕ} : p ∈ blocksOf frees i ↔ (i, p) ∈ frees := by
  simp [blocksOf]

theorem blocksOf_append (l₁ l₂ : List (ℕ × ℕ)) (i : ℕ) :
    blocksOf (l₁ ++ l₂) i = blocksOf l₁ i ++ blocksOf l₂ i := by
  rw [blocksOf, List.filter_append, List.map_append]
  rfl

theorem blocksOf_cons (i p : ℕ) (l : List (ℕ × ℕ)) (j : ℕ) :
    blocksOf ((i, p) :: l) j = if i = j then p :: blocksOf l j else blocksOf l j := by
  unfold blocksOf
  split_ifs with hij
  · rw [List.filter_cons_of_pos (by simpa using hij)]
    rfl
  · rw [List.filter_cons_of_neg (by simpa using hij)]

theorem blocksOf_map (ps : List ℕ) (i j : ℕ) :
    blocksOf (ps.map fun p => (i, p)) j = if i = j then ps else [] := by
  induction ps with
  | nil => split_ifs <;> rfl
  | cons p ps ih =>
    rw [List.map_cons, blocksOf_cons, ih]
    split_ifs <;> rfl

theorem exists_of_blocksOf {frees : List (ℕ × ℕ)} {i p : ℕ} {l : List ℕ}
    (h : blocksOf frees i = p :: l) :
    ∃ l₁ l₂, frees = l₁ ++ (i, p) :: l₂ ∧ blocksOf l₁ i = [] := by
  obtain ⟨⟨i', p'⟩, rest, hfilter, rfl, -⟩ := List.map_eq_cons_iff.mp h
  obtain ⟨l₁, l₂, rfl, hl₁, hi, -⟩ := List.filter_eq_cons_iff.mp hfilter
  obtain rfl : i' = i := decide_eq_true_eq.mp hi
  exact ⟨l₁, l₂, rfl, by rw [blocksOf, List.filter_eq_nil_iff.mpr hl₁]; rfl⟩

/-- The free lists for which `P` holds are chains of their free blocks. -/
structure Lists (s : PoolAlloter) (frees : List (ℕ × ℕ)) (P : ℕ → Prop) : Prop where
  length_eq : s._free_list.length = 32
  chain : ∀ i < 32, P i → ∃ p, s._free_list[i]? = some p ∧
    FreeChain s.memory p (blocksOf frees i)

/-- The free list `i` gets a new head, and the others stay. -/
theorem Lists.set {s : PoolAlloter} {frees frees' : List (ℕ × ℕ)} {P : ℕ → Prop} {i p : ℕ}
    (h : Lists s frees P) (hi : i < 32) {memory : ℕ → ℕ}
    (hhead : FreeChain memory p (blocksOf frees' i))
    (hsame : ∀ j, j ≠ i → blocksOf frees' j = blocksOf frees j)
    (hmemory : ∀ x ∈ frees, x.1 ≠ i → memory x.2 = s.memory x.2) :
    Lists { s with _free_list := s._free_list.set i p, memory } frees' fun j => j = i ∨ P j := by
  refine ⟨(List.length_set ..).trans h.length_eq, fun j hj hP => ?_⟩
  rcases eq_or_ne j i with rfl | hne
  · exact ⟨p, List.getElem?_set_self (h.length_eq ▸ hj), hhead⟩
  · obtain ⟨q, hq, hchain⟩ := h.chain j hj (hP.resolve_left hne)
    refine ⟨q, (List.getElem?_set_ne hne.symm).trans hq, ?_⟩
    rw [hsame j hne]
    exact hchain.congr fun x hx => hmemory (j, x) (mem_blocksOf.mp hx) hne

theorem Lists.mono {s : PoolAlloter} {frees : List (ℕ × ℕ)} {P Q : ℕ → Prop} (h : Lists s frees P)
    (hPQ : ∀ i < 32, Q i → P i) : Lists s frees Q :=
  ⟨h.length_eq, fun i hi hQ => h.chain i hi (hPQ i hi hQ)⟩

/-- Other changes of memory. -/
theorem Lists.congr {s s' : PoolAlloter} {frees : List (ℕ × ℕ)} {P : ℕ → Prop} (h : Lists s frees P)
    (hlists : s'._free_list = s._free_list) (hmemory : ∀ x ∈ frees, s'.memory x.2 = s.memory x.2) :
    Lists s' frees P := by
  refine ⟨hlists ▸ h.length_eq, fun i hi hP => ?_⟩
  obtain ⟨p, hp, hchain⟩ := h.chain i hi hP
  exact ⟨p, hlists ▸ hp, hchain.congr fun x hx => hmemory (i, x) (mem_blocksOf.mp hx)⟩

namespace PoolAlloter

variable {s : PoolAlloter} {size : UInt32} {frees : List (ℕ × ℕ)} {live : List ClientBlock}
  {chunks : List Region} {P : ℕ → Prop}

theorem listHead_eq (s : PoolAlloter) (hpos : 0 < size.toNat) (h : size.toNat ≤ 256) :
    s.listHead size = s._free_list[classOf size.toNat]? := by
  rw [listHead, freeListIndex_toNat hpos h]

theorem setHead_eq (hpos : 0 < size.toNat) (h : size.toNat ≤ 256)
    (hlength : s._free_list.length = 32) (node : ℕ) : s.setHead size node =
      some { s with _free_list := s._free_list.set (classOf size.toNat) node } := by
  rw [setHead, freeListIndex_toNat hpos h, if_pos]
  rw [hlength]
  exact classOf_lt h

@[simp] theorem setNext_memory_self (s : PoolAlloter) (node next : ℕ) :
    (s.setNext node next).memory node = next := Function.update_self ..

theorem setNext_memory_of_ne (s : PoolAlloter) {node w : ℕ} (next : ℕ) (h : w ≠ node) :
    (s.setNext node next).memory w = s.memory w := Function.update_of_ne h ..

/-! ## Chains of new blocks -/

theorem linkNodes_eq (n m current : ℕ) (s : PoolAlloter) :
    linkNodes n m current s = { s with memory := (linkNodes n m current s).memory } := by
  induction m generalizing current s with
  | zero => rfl
  | succ m ih =>
    cases m with
    | zero => rfl
    | succ m => exact ih (current + n) (s.setNext current (current + n))

/-- The loop of `ReFill` makes a chain, and writes to the nodes only. -/
theorem linkNodes_chain {n : ℕ} (hn : 0 < n) (m : ℕ) {current : ℕ} (hcurrent : 0 < current)
    (s : PoolAlloter) :
    FreeChain (linkNodes n (m + 1) current s).memory current (pieces n current (m + 1)) ∧
      ∀ w, w ∉ pieces n current (m + 1) →
        (linkNodes n (m + 1) current s).memory w = s.memory w := by
  induction m generalizing current s with
  | zero =>
    refine ⟨⟨rfl, hcurrent.ne', setNext_memory_self ..⟩, fun w hw => ?_⟩
    exact setNext_memory_of_ne s 0 (List.ne_of_not_mem_cons hw)
  | succ m ih =>
    obtain ⟨hchain, hother⟩ := ih (Nat.add_pos_left hcurrent n)
      (s.setNext current (current + n))
    refine ⟨⟨rfl, hcurrent.ne', ?_⟩, fun w hw => ?_⟩
    · -- the later nodes are behind this one
      have hnot : current ∉ pieces n (current + n) (m + 1) := by
        intro hmem
        obtain ⟨i, -, hi⟩ := mem_pieces hmem
        omega
      rw [linkNodes, hother current hnot, setNext_memory_self]
      exact hchain
    · rw [linkNodes, hother w fun hmem => hw (List.mem_cons_of_mem _ hmem)]
      exact setNext_memory_of_ne s _ (List.ne_of_not_mem_cons hw)

/-- What `ReFill` does with the blocks it has got. -/
def chained (s : PoolAlloter) (size : UInt32) (chunk : ℕ) (nums : UInt32) :
    Option (ℕ × PoolAlloter) :=
  if nums = 1 then some (chunk, s)
  else (s.setHead size (chunk + size.toNat)).map fun s =>
    (chunk, linkNodes size.toNat (nums - 1).toNat (chunk + size.toNat) s)

theorem reFill_eq (fresh : ℕ) (s : PoolAlloter) (size : UInt32) : s.reFill fresh size =
    (s.chunkAlloc fresh size defaultNumberAddNodes).bind fun x => x.2.chained size x.1.1 x.1.2 := by
  unfold reFill chained
  cases s.chunkAlloc fresh size defaultNumberAddNodes with
  | none => rfl
  | some x =>
    show (if x.1.2 = 1 then _ else _) = (if x.1.2 = 1 then _ else _)
    split_ifs
    · rfl
    · cases x.2.setHead size (x.1.1 + size.toNat) <;> rfl

@[simp] theorem linkNodes_pool_start (n m current : ℕ) (s : PoolAlloter) :
    (linkNodes n m current s)._pool_start = s._pool_start := by
  rw [linkNodes_eq]

@[simp] theorem linkNodes_pool_end (n m current : ℕ) (s : PoolAlloter) :
    (linkNodes n m current s)._pool_end = s._pool_end := by
  rw [linkNodes_eq]

@[simp] theorem linkNodes_free_list (n m current : ℕ) (s : PoolAlloter) :
    (linkNodes n m current s)._free_list = s._free_list := by
  rw [linkNodes_eq]

/-- What a block of a client is after an operation of the allocator, as far as the client goes. -/
def Kept (live : List ClientBlock) (s s' : PoolAlloter) : Prop :=
  ∀ b ∈ live, ∀ w, b.extent.Covers w → s'.memory w = s.memory w

/-- The blocks that were cut off the pool: the first goes to a client, the others on their list. -/
theorem chained_spec (hpos : 0 < size.toNat) (hsmall : size.toNat ≤ 256)
    (hlayout : Layout s._pool_start s._pool_end live chunks frees)
    (hlists : Lists s frees fun i => i ≠ classOf size.toNat)
    (hnone : blocksOf frees (classOf size.toNat) = []) {n : ℕ}
    (hle : (n + 1) * wholeWords size.toNat ≤ s._pool_end - s._pool_start)
    (hhead : n = 0 → s._free_list[classOf size.toNat]? = some 0) {nums : UInt32}
    (hnums : nums.toNat = n + 1) :
    ∃ s' frees', chained { s with
        _pool_start := s._pool_start + (n + 1) * wholeWords size.toNat } (alignUp size)
        s._pool_start nums = some (s._pool_start, s') ∧
      Layout s'._pool_start s'._pool_end (⟨s._pool_start, size⟩ :: live) chunks frees' ∧
      Lists s' frees' (fun _ => True) ∧ Kept live s s' := by
  have hcarve := hlayout.carve hpos hsmall hle
  have hone : nums = 1 ↔ n = 0 := by
    rw [← UInt32.toNat_inj, hnums]
    exact Nat.succ_inj
  cases n with
  | zero =>
    refine ⟨_, frees, if_pos (hone.mpr rfl), hcarve, ⟨hlists.length_eq, fun i hi _ => ?_⟩,
      fun b hb w hw => rfl⟩
    rcases eq_or_ne i (classOf size.toNat) with rfl | hne
    · exact ⟨0, hhead rfl, by rw [hnone]; rfl⟩
    · exact hlists.chain i hi hne
  | succ m =>
    have hword := wholeWords_pos hpos
    have halign := alignUp_toNat hsmall
    have hpos' : 0 < (alignUp size).toNat := by omega
    have hsmall' : (alignUp size).toNat ≤ 256 := halign ▸ wholeWords_le hsmall
    have hsub : (nums - 1).toNat = m + 1 := by
      rw [UInt32.toNat_sub_of_le, hnums]
      · rfl
      · rw [UInt32.le_iff_toNat_le, hnums]
        exact Nat.le_add_left 1 (m + 1)
    set s₁ : PoolAlloter := { s with
      _pool_start := s._pool_start + (m + 1 + 1) * wholeWords size.toNat
      _free_list := s._free_list.set (classOf size.toNat)
        (s._pool_start + wholeWords size.toNat) } with hs₁
    set frees' := (pieces (wholeWords size.toNat) (s._pool_start + wholeWords size.toNat)
      (m + 1)).map (fun p => (classOf size.toNat, p)) ++ frees with hfrees'
    have hstart : 0 < s._pool_start := by
      obtain ⟨hp, -, -⟩ := hcarve.live_ok _ List.mem_cons_self
      exact hp
    obtain ⟨hchain, hother⟩ := linkNodes_chain (Nat.lt_of_lt_of_le (by decide) hword) m
      (Nat.add_pos_left hstart (wholeWords size.toNat)) s₁
    have hnew : ∀ p ∈ pieces (wholeWords size.toNat) (s._pool_start + wholeWords size.toNat)
        (m + 1), (classOf size.toNat, p) ∈ (pieces (wholeWords size.toNat)
          (s._pool_start + wholeWords size.toNat) (m + 1)).map
            (fun p => (classOf size.toNat, p)) := fun p => List.mem_map_of_mem
    refine ⟨linkNodes (wholeWords size.toNat) (m + 1) (s._pool_start + wholeWords size.toNat) s₁,
      frees', ?_, ?_, ?_, fun b hb w hw => hother w fun hmem => ?_⟩
    · have hhead' := @setHead_eq { s with
        _pool_start := s._pool_start + (m + 1 + 1) * wholeWords size.toNat } _ hpos' hsmall'
        hlists.length_eq
      rw [chained, if_neg (mt hone.mp (Nat.succ_ne_zero m)), hhead', hsub, halign,
        classOf_wholeWords]
      rfl
    · rw [linkNodes_pool_start, linkNodes_pool_end]
      exact hcarve
    · have hfirst : FreeChain (linkNodes (wholeWords size.toNat) (m + 1)
          (s._pool_start + wholeWords size.toNat) s₁).memory
          (s._pool_start + wholeWords size.toNat) (blocksOf frees' (classOf size.toNat)) := by
        rw [hfrees', blocksOf_append, blocksOf_map, if_pos rfl, hnone, List.append_nil]
        exact hchain
      have hsame : ∀ j, j ≠ classOf size.toNat → blocksOf frees' j = blocksOf frees j := by
        intro j hj
        rw [hfrees', blocksOf_append, blocksOf_map, if_neg hj.symm, List.nil_append]
      refine ((hlists.set (classOf_lt hsmall) hfirst hsame fun x hx _ => ?_).mono
        fun i _ _ => em (i = classOf size.toNat)).congr ?_ fun x hx => rfl
      · refine hother x.2 fun hmem => ?_
        -- a new block is not an old one
        exact (hcarve.free_free (hnew x.2 hmem) hx).not_covers (freeRegion_covers _)
          (freeRegion_covers x)
      · rw [linkNodes_free_list]
    · exact (hcarve.free_live (List.mem_append_left _ (hnew w hmem))
        (List.mem_cons_of_mem _ hb)).not_covers (freeRegion_covers _) hw

/-! ## The pool -/

section Pool

variable (hpos : 0 < size.toNat) (hsmall : size.toNat ≤ 256)
  (hlayout : Layout s._pool_start s._pool_end live chunks frees)

include hlayout in
theorem leftBytes_toNat : s.leftBytes.toNat = s._pool_end - s._pool_start := by
  have := hlayout.stop_le
  rw [leftBytes, UInt32.toNat_ofNat_of_lt']
  show s._pool_end - s._pool_start < 2 ^ 32
  omega

include hsmall in
theorem mul_nodes_toNat :
    (alignUp size * defaultNumberAddNodes).toNat = 20 * wholeWords size.toNat := by
  have hle := wholeWords_le hsmall
  rw [UInt32.toNat_mul, alignUp_toNat hsmall]
  show wholeWords size.toNat * 20 % 2 ^ 32 = 20 * wholeWords size.toNat
  omega

include hpos hsmall hlayout

/-- The pool has enough for a block. -/
theorem fromPool_some (hle : wholeWords size.toNat ≤ s._pool_end - s._pool_start) :
    ∃ n nums, s.fromPool (alignUp size) defaultNumberAddNodes = some ((s._pool_start, nums),
        { s with _pool_start := s._pool_start + (n + 1) * wholeWords size.toNat }) ∧
      nums.toNat = n + 1 ∧ (n + 1) * wholeWords size.toNat ≤ s._pool_end - s._pool_start ∧
      (20 * wholeWords size.toNat ≤ s._pool_end - s._pool_start → n = 19) := by
  have hleft := leftBytes_toNat hlayout
  have halign := alignUp_toNat hsmall
  have hword := wholeWords_pos hpos
  have hmul := mul_nodes_toNat hsmall
  have hstop := hlayout.stop_le
  unfold fromPool
  simp only [UInt32.le_iff_toNat_le, hmul, hleft, halign]
  split_ifs with hall
  · exact ⟨19, defaultNumberAddNodes, rfl, rfl, hall, fun _ => rfl⟩
  · -- as many blocks as there is room for
    have hdiv : (s.leftBytes / alignUp size).toNat =
        (s._pool_end - s._pool_start) / wholeWords size.toNat := by
      rw [UInt32.toNat_div, hleft, halign]
    have hone : 1 ≤ (s._pool_end - s._pool_start) / wholeWords size.toNat :=
      (Nat.one_le_div_iff (by omega)).mpr hle
    have hback := Nat.div_mul_le_self (s._pool_end - s._pool_start) (wholeWords size.toNat)
    refine ⟨(s._pool_end - s._pool_start) / wholeWords size.toNat - 1, _, ?_,
      by rw [hdiv, Nat.sub_add_cancel hone], by rw [Nat.sub_add_cancel hone]; exact hback,
      fun h => absurd h hall⟩
    have hbytes : (alignUp size * (s.leftBytes / alignUp size)).toNat =
        ((s._pool_end - s._pool_start) / wholeWords size.toNat - 1 + 1) *
          wholeWords size.toNat := by
      rw [UInt32.toNat_mul, hdiv, halign, Nat.sub_add_cancel hone, Nat.mul_comm, Nat.mod_eq_of_lt]
      omega
    rw [hbytes]

omit hpos in
theorem fromPool_none (hlt : s._pool_end - s._pool_start < wholeWords size.toNat) :
    s.fromPool (alignUp size) defaultNumberAddNodes = none := by
  have hleft := leftBytes_toNat hlayout
  have halign := alignUp_toNat hsmall
  have hmul := mul_nodes_toNat hsmall
  unfold fromPool
  simp only [UInt32.le_iff_toNat_le, hmul, hleft, halign]
  rw [if_neg (by omega), if_neg (by omega)]

/-- What is left of the old pool is given up: its node goes on the list that is filled next. -/
theorem newPool_spec (hlists : Lists s frees fun i => i ≠ classOf size.toNat)
    (hlt : s._pool_end - s._pool_start < wholeWords size.toNat) {fresh : ℕ} (hfresh : 0 < fresh)
    (hdvd : 8 ∣ fresh) (hr : ∀ x ∈ chunks ++ live.map ClientBlock.extent,
      Region.Disjoint ⟨fresh, 20 * wholeWords size.toNat⟩ x) :
    ∃ s', s.newPool fresh (alignUp size) defaultNumberAddNodes = some s' ∧
      s'._pool_start = fresh ∧ s'._pool_end = fresh + 20 * wholeWords size.toNat ∧
      Layout s'._pool_start s'._pool_end live (⟨fresh, 20 * wholeWords size.toNat⟩ :: chunks)
        frees ∧ Lists s' frees (fun i => i ≠ classOf size.toNat) ∧ Kept live s s' := by
  have hleft := leftBytes_toNat hlayout
  have halign := alignUp_toNat hsmall
  have hword := wholeWords_pos hpos
  have hwords := wholeWords_le hsmall
  have hmul := mul_nodes_toNat hsmall
  have hrenew := hlayout.renew hfresh hdvd (Dvd.dvd.mul_left (dvd_wholeWords size.toNat) 20)
    (by omega) hr
  rcases Nat.eq_zero_or_pos (s._pool_end - s._pool_start) with hzero | hsome
  · refine ⟨{ s with
      _pool_start := fresh, _malloc_vec := s._malloc_vec ++ [fresh]
      _pool_end := fresh + 20 * wholeWords size.toNat }, ?_, rfl, rfl, hrenew,
      hlists.congr rfl fun _ _ => rfl, fun _ _ _ _ => rfl⟩
    have hnot : ¬ 0 < s.leftBytes := by
      rw [UInt32.lt_iff_toNat_lt, hleft, hzero]
      exact lt_irrefl 0
    simp only [newPool, if_neg hnot, hmul]
    rfl
  · have hsmall' : s.leftBytes.toNat ≤ 256 := by omega
    have hindex := classOf_lt hsmall'
    obtain ⟨my_free, hmy⟩ : ∃ p, s._free_list[classOf s.leftBytes.toNat]? = some p :=
      ⟨_, List.getElem?_eq_getElem (hlists.length_eq ▸ hindex)⟩
    have hcovers : Region.Covers ⟨s._pool_start, s._pool_end - s._pool_start⟩ s._pool_start :=
      ⟨le_rfl, Nat.lt_add_of_pos_right hsome⟩
    have hset := @setHead_eq (s.setNext s._pool_start my_free) (alignUp size) (by omega)
      (by omega) hlists.length_eq s._pool_start
    rw [halign, classOf_wholeWords] at hset
    refine ⟨{ s with
      _pool_start := fresh, _malloc_vec := s._malloc_vec ++ [fresh]
      _pool_end := fresh + 20 * wholeWords size.toNat
      _free_list := s._free_list.set (classOf size.toNat) s._pool_start
      memory := (s.setNext s._pool_start my_free).memory }, ?_, rfl, rfl, hrenew, ?_, ?_⟩
    · have hlt' : 0 < s.leftBytes := by
        rw [UInt32.lt_iff_toNat_lt, hleft]
        exact hsome
      simp only [newPool, if_pos hlt', listHead_eq s (hleft ▸ hsome) hsmall', hmy,
        Option.bind_eq_bind, Option.bind_some, hset, hmul]
      rfl
    · refine ⟨(List.length_set ..).trans hlists.length_eq, fun i hi hne => ?_⟩
      obtain ⟨p, hp, hchain⟩ := hlists.chain i hi hne
      refine ⟨p, (List.getElem?_set_ne (Ne.symm hne)).trans hp, hchain.congr fun x hx => ?_⟩
      refine setNext_memory_of_ne s my_free fun heq => ?_
      exact (hlayout.pool_free (mem_blocksOf.mp hx)).not_covers hcovers
        (heq ▸ freeRegion_covers (i, x))
    · intro b hb w hw
      refine setNext_memory_of_ne s my_free fun heq => ?_
      exact (hlayout.pool_live hb).not_covers hcovers (heq ▸ hw)

/-- `ReFill`, when the free list is empty; `chunks'` are the pools after it. -/
theorem reFill_spec (hlists : Lists s frees fun _ => True)
    (hhead : s._free_list[classOf size.toNat]? = some 0) (fresh : ℕ)
    (hfresh : s._pool_end - s._pool_start < wholeWords size.toNat → 0 < fresh ∧ 8 ∣ fresh ∧
      ∀ x ∈ chunks ++ live.map ClientBlock.extent,
        Region.Disjoint ⟨fresh, 20 * wholeWords size.toNat⟩ x) :
    ∃ start s' frees', s.reFill fresh (alignUp size) = some (start, s') ∧
      Layout s'._pool_start s'._pool_end (⟨start, size⟩ :: live)
        (if s._pool_end - s._pool_start < wholeWords size.toNat then
          ⟨fresh, 20 * wholeWords size.toNat⟩ :: chunks else chunks) frees' ∧
      Lists s' frees' (fun _ => True) ∧ Kept live s s' := by
  have hnone : blocksOf frees (classOf size.toNat) = [] := by
    obtain ⟨p, hp, hchain⟩ := hlists.chain _ (classOf_lt hsmall) trivial
    exact hchain.eq_nil_iff.mpr (Option.some_inj.mp (hp.symm.trans hhead))
  have hother := hlists.mono (Q := fun i => i ≠ classOf size.toNat) fun _ _ _ => trivial
  simp only [reFill_eq, chunkAlloc]
  by_cases hlt : s._pool_end - s._pool_start < wholeWords size.toNat
  · obtain ⟨hpos', hdvd, hr⟩ := hfresh hlt
    obtain ⟨s₁, hnew, hstart, hend, hlayout₁, hlists₁, hkept₁⟩ :=
      newPool_spec hpos hsmall hlayout hother hlt hpos' hdvd hr
    have hroom : 20 * wholeWords size.toNat = s₁._pool_end - s₁._pool_start := by
      rw [hstart, hend, Nat.add_sub_cancel_left]
    obtain ⟨n, nums, hfrom, hnums, hle, hall⟩ :=
      fromPool_some hpos hsmall hlayout₁ (by omega)
    have hn : n ≠ 0 := by
      rw [hall hroom.le]
      decide
    obtain ⟨s', frees', hchained, hlayout', hlists', hkept⟩ :=
      chained_spec hpos hsmall hlayout₁ hlists₁ hnone hle (fun h₀ => absurd h₀ hn) hnums
    rw [fromPool_none hsmall hlayout hlt, if_pos hlt]
    refine ⟨_, s', frees', ?_, hlayout', hlists', fun b hb w hw =>
      (hkept b hb w hw).trans (hkept₁ b hb w hw)⟩
    rw [hnew, Option.bind_eq_bind, Option.bind_some, hfrom, Option.bind_some]
    exact hchained
  · obtain ⟨n, nums, hfrom, hnums, hle, -⟩ :=
      fromPool_some hpos hsmall hlayout (Nat.le_of_not_lt hlt)
    obtain ⟨s', frees', hchained, hlayout', hlists', hkept⟩ :=
      chained_spec hpos hsmall hlayout hother hnone hle (fun _ => hhead) hnums
    rw [hfrom, if_neg hlt]
    exact ⟨_, s', frees', hchained, hlayout', hlists', hkept⟩

end Pool

/-- `Free`, of a block that did not come from `malloc` itself. -/
theorem free_spec {b : ClientBlock} (hlayout : Layout s._pool_start s._pool_end live chunks frees)
    (hlists : Lists s frees fun _ => True) (hb : b ∈ live) (hsmall : b.Small) {len : UInt32}
    (hlen : wholeWords len.toNat = wholeWords b.size.toNat) :
    ∃ s', s.free b.start len = some s' ∧
      Layout s'._pool_start s'._pool_end (live.erase b) chunks
        ((classOf b.size.toNat, b.start) :: frees) ∧
      Lists s' ((classOf b.size.toNat, b.start) :: frees) (fun _ => True) ∧
      Kept (live.erase b) s s' := by
  obtain ⟨hpos, -, hsize⟩ := hlayout.live_ok b hb
  have hgive := hlayout.give hb hsmall
  have hclass : classOf len.toNat = classOf b.size.toNat := by
    rw [← classOf_wholeWords, hlen, classOf_wholeWords]
  have hsmall₁ : b.size.toNat ≤ 256 := hsmall
  have hpos' : 0 < len.toNat ∧ len.toNat ≤ 256 := by
    unfold wholeWords at hlen
    omega
  have hle : ¬ defaultMaxBytes < len := by
    rw [UInt32.not_lt, le_defaultMaxBytes]
    exact hpos'.2
  obtain ⟨my_free, hmy, hchain⟩ := hlists.chain _ (classOf_lt hsmall₁) trivial
  have hset := @setHead_eq (s.setNext b.start my_free) len hpos'.1 hpos'.2 hlists.length_eq b.start
  rw [hclass] at hset
  -- a node that is free already is not the block
  have hold : ∀ x ∈ frees, (s.setNext b.start my_free).memory x.2 = s.memory x.2 := by
    intro x hx
    refine setNext_memory_of_ne s my_free fun heq => ?_
    exact (hgive.free_free (List.mem_singleton_self _) hx).not_covers (freeRegion_covers _)
      (heq ▸ freeRegion_covers x)
  refine ⟨{ s with
    _free_list := s._free_list.set (classOf b.size.toNat) b.start
    memory := (s.setNext b.start my_free).memory }, ?_, hgive, ?_, fun b' hb' w hw => ?_⟩
  · rw [free, if_neg hpos.ne', if_neg hle, listHead_eq s hpos'.1 hpos'.2, hclass, hmy]
    exact hset
  · have hhead : FreeChain (s.setNext b.start my_free).memory b.start
        (blocksOf ((classOf b.size.toNat, b.start) :: frees) (classOf b.size.toNat)) := by
      rw [blocksOf_cons, if_pos rfl]
      refine ⟨rfl, hpos.ne', ?_⟩
      rw [setNext_memory_self]
      exact hchain.congr fun x hx => hold (_, x) (mem_blocksOf.mp hx)
    refine (hlists.set (classOf_lt hsmall₁) hhead (fun j hj => ?_) fun x hx _ => hold x hx).mono
      fun i _ _ => Or.inr trivial
    rw [blocksOf_cons, if_neg hj.symm]
  · refine setNext_memory_of_ne s my_free fun heq => ?_
    exact (hgive.free_live List.mem_cons_self hb').not_covers (freeRegion_covers _) (heq ▸ hw)

end PoolAlloter

/-! ## Sessions -/

namespace Session

variable {s : Session} {frees : List (ℕ × ℕ)}

/-- The blocks are laid out, the free lists are chains of those that are free, and the clients know
what is in theirs. -/
structure Sound (s : Session) (frees : List (ℕ × ℕ)) : Prop where
  layout : Layout s.pool._pool_start s.pool._pool_end s.live s.chunks frees
  lists : Lists s.pool frees fun _ => True
  known : ∀ b ∈ s.live, ∀ w, b.extent.Covers w → s.pool.memory w = s.known w

theorem sound_new (memory : ℕ → ℕ) : (new memory).Sound [] where
  layout := .nil
  lists := by
    refine ⟨List.length_replicate, fun i hi _ => ⟨0, ?_, rfl⟩⟩
    exact List.getElem?_replicate_of_lt hi
  known _ hb := nomatch hb

/-- A block that a client gets. -/
theorem Sound.known_cons (h : s.Sound frees) {pool : PoolAlloter} {b : ClientBlock}
    (hkept : PoolAlloter.Kept s.live s.pool pool) :
    ∀ b' ∈ b :: s.live, ∀ w, b'.extent.Covers w →
      pool.memory w = if b.extent.Covers w then pool.memory w else s.known w := by
  intro b' hb' w hw
  split_ifs with hcovers
  · rfl
  · rcases List.mem_cons.mp hb' with rfl | hb'
    · exact absurd hw hcovers
    · rw [hkept b' hb' w hw, h.known b' hb' w hw]

theorem Sound.got (h : s.Sound frees) {size : UInt32} {fresh start : ℕ} {pool : PoolAlloter}
    {chunks : List Region} (hchunks : (s.got size fresh start pool).chunks = chunks)
    {frees' : List (ℕ × ℕ)} (hlayout : Layout pool._pool_start pool._pool_end
      (⟨start, size⟩ :: s.live) chunks frees')
    (hlists : Lists pool frees' fun _ => True) (hkept : PoolAlloter.Kept s.live s.pool pool) :
    (s.got size fresh start pool).Sound frees' :=
  ⟨hchunks ▸ hlayout, hlists, h.known_cons hkept⟩

theorem step_malloc {size : UInt32} {fresh start : ℕ} {pool : PoolAlloter}
    (h : s.pool.malloc fresh size = some (start, pool)) :
    s.step (.malloc size fresh) = some (s.got size fresh start pool) := by
  rw [step, h]
  rfl

theorem Sound.malloc (h : s.Sound frees) (size : UInt32) (fresh : ℕ)
    (hallowed : Allowed s (.malloc size fresh)) :
    ∃ s', s.step (.malloc size fresh) = some s' ∧ ∃ frees', s'.Sound frees' := by
  obtain ⟨hpos, hasks⟩ := hallowed
  rw [UInt32.lt_iff_toNat_lt] at hpos
  by_cases hlarge : defaultMaxBytes < size
  · have hlarge' : 256 < size.toNat := UInt32.lt_iff_toNat_lt.mp hlarge
    have hnot : ¬ s.pool.Expands size := fun hexp => absurd hexp.1 (UInt32.not_le.mpr hlarge)
    obtain ⟨hfresh, hdvd, hr⟩ := hasks size.toNat (by rw [PoolAlloter.asks, if_pos hlarge]; rfl)
    exact ⟨_, step_malloc (if_pos hlarge), frees, h.got (if_neg hnot)
      (h.layout.takeLarge hlarge' hfresh hdvd hr) h.lists fun _ _ _ _ => rfl⟩
  · have hsmall : size.toNat ≤ 256 := le_defaultMaxBytes.mp (UInt32.not_lt.mp hlarge)
    obtain ⟨p, hp, hchain⟩ := h.lists.chain _ (classOf_lt hsmall) trivial
    have hhead : s.pool.listHead size = some p := (listHead_eq s.pool hpos hsmall).trans hp
    have hexp : s.pool.Expands size ↔
        p = 0 ∧ s.pool._pool_end - s.pool._pool_start < wholeWords size.toNat := by
      rw [PoolAlloter.Expands, UInt32.lt_iff_toNat_lt, leftBytes_toNat h.layout,
        alignUp_toNat hsmall, hhead, Option.some_inj]
      exact and_iff_right (le_defaultMaxBytes.mpr hsmall)
    by_cases hzero : p = 0
    · subst hzero
      rw [eq_self_iff_true, true_and] at hexp
      have hmul := mul_nodes_toNat hsmall
      obtain ⟨start, pool, frees', hfill, hlayout, hlists, hkept⟩ :=
        reFill_spec hpos hsmall h.layout h.lists hp fresh fun hlt => by
          have hask : s.pool.asks size = some (20 * wholeWords size.toNat) := by
            rw [PoolAlloter.asks, if_neg hlarge, if_pos (hexp.mpr hlt), hmul]
          obtain ⟨hfresh, hdvd, hr⟩ := hasks _ hask
          rw [wholeWords_of_dvd (Dvd.dvd.mul_left (dvd_wholeWords _) 20)] at hr
          exact ⟨hfresh, hdvd, hr⟩
      refine ⟨_, step_malloc ?_, frees', h.got ?_ hlayout hlists hkept⟩
      · rw [PoolAlloter.malloc, if_neg hlarge, hhead]
        exact hfill
      · rw [Session.got, hmul]
        exact if_congr hexp rfl rfl
    · have hnot : ¬ s.pool.Expands size := fun h => hzero (hexp.mp h).1
      obtain ⟨l, hblocks⟩ : ∃ l, blocksOf frees (classOf size.toNat) = p :: l := by
        cases hblocks : blocksOf frees (classOf size.toNat) with
        | nil => exact absurd (hchain.eq_nil_iff.mp hblocks) hzero
        | cons x l =>
          rw [hblocks] at hchain
          exact ⟨l, by rw [hchain.1]⟩
      obtain ⟨l₁, l₂, rfl, hl₁⟩ := exists_of_blocksOf hblocks
      have hsame : ∀ j, j ≠ classOf size.toNat →
          blocksOf (l₁ ++ l₂) j = blocksOf (l₁ ++ (classOf size.toNat, p) :: l₂) j := by
        intro j hj
        rw [blocksOf_append, blocksOf_append, blocksOf_cons, if_neg hj.symm]
      rw [blocksOf_append, blocksOf_cons, if_pos rfl, hl₁, List.nil_append] at hchain
      have hmalloc : s.pool.malloc fresh size = some (p, { s.pool with
          _free_list := s.pool._free_list.set (classOf size.toNat) (s.pool.memory p) }) := by
        rw [PoolAlloter.malloc, if_neg hlarge, hhead, Option.bind_eq_bind, Option.bind_some,
          if_neg hzero, setHead_eq hpos hsmall h.lists.length_eq]
        rfl
      refine ⟨_, step_malloc hmalloc, l₁ ++ l₂, h.got (if_neg hnot) (h.layout.take hpos) ?_
        fun _ _ _ _ => rfl⟩
      · refine (h.lists.set (classOf_lt hsmall) ?_ hsame fun _ _ _ => rfl).mono
          fun i _ _ => Or.inr trivial
        rw [blocksOf_append, hl₁, List.nil_append]
        exact hchain.2.2

/-- A client gives a block back. -/
theorem Sound.free (h : s.Sound frees) (b : ClientBlock) (len : UInt32)
    (hallowed : Allowed s (.free b len)) :
    ∃ s', s.step (.free b len) = some s' ∧ ∃ frees', s'.Sound frees' := by
  obtain ⟨hb, hlen⟩ := hallowed
  have hsub : s.live.erase b ⊆ s.live := List.erase_subset
  by_cases hsmall : b.Small
  · obtain ⟨pool, hfree, hlayout, hlists, hkept⟩ :=
      free_spec h.layout h.lists hb hsmall hlen
    refine ⟨_, by rw [step, hfree]; rfl, _, hlayout, hlists, fun b' hb' w hw => ?_⟩
    exact (hkept b' hb' w hw).trans (h.known b' (hsub hb') w hw)
  · have hlarge : defaultMaxBytes < len := by
      rw [UInt32.lt_iff_toNat_lt]
      show 256 < len.toNat
      unfold ClientBlock.Small at hsmall
      unfold wholeWords at hlen
      omega
    have hfree : s.pool.free b.start len = some s.pool := by
      rw [PoolAlloter.free, if_neg (h.layout.live_ok b hb).1.ne', if_pos hlarge]
    exact ⟨{ s with live := s.live.erase b }, by rw [step, hfree]; rfl, frees, h.layout.drop b,
      h.lists, fun b' hb' => h.known b' (hsub hb')⟩

/-- A client writes to a block of its own. -/
theorem Sound.write (h : s.Sound frees) (w v : ℕ) (hallowed : Allowed s (.write w v)) :
    ∃ s', s.step (.write w v) = some s' ∧ ∃ frees', s'.Sound frees' := by
  obtain ⟨b, hb, hw⟩ := hallowed
  refine ⟨_, rfl, frees, h.layout, h.lists.congr rfl fun x hx => ?_, fun b' hb' w' hw' => ?_⟩
  · refine Function.update_of_ne (fun heq => ?_) _ _
    exact (h.layout.free_live hx hb).not_covers (heq ▸ freeRegion_covers x) hw
  · simp only [Function.update_apply]
    split_ifs
    · rfl
    · exact h.known b' hb' w' hw'

theorem Sound.step (s : Session) (e : ClientEvent) (h : ∃ frees, s.Sound frees)
    (hallowed : Allowed s e) : ∃ s', s.step e = some s' ∧ ∃ frees, s'.Sound frees := by
  obtain ⟨frees, h⟩ := h
  cases e with
  | malloc size fresh => exact h.malloc size fresh hallowed
  | free b len => exact h.free b len hallowed
  | write w v => exact h.write w v hallowed

/-- **Blocks never overlap, and nobody writes to the block of another.** In every run of requests,
returns and writes from a fresh allocator, in which `malloc` returns words that are not in use,
blocks are given back once and clients write to their own blocks, the operations succeed, no two
blocks of clients have a byte in common, each starts at a whole word and is within a pool if it did
not come from `malloc` itself, and every word of a block holds what its client has written there, or
has found. -/
theorem apart_of_run (memory : ℕ → ℕ) (es : List ClientEvent)
    (hallowed : PartialMachine.Meets step Allowed (new memory) es) :
    ∃ s, es.foldlM step (new memory) = some s ∧ Apart (s.live.map ClientBlock.extent) ∧
      ∀ b ∈ s.live, 0 < b.start ∧ 8 ∣ b.start ∧
        (b.Small → ∃ c ∈ s.chunks, b.extent.Within c) ∧
        ∀ w, b.extent.Covers w → s.pool.memory w = s.known w := by
  obtain ⟨s, hrun, frees, h⟩ := PartialMachine.exists_run Sound.step ⟨[], sound_new memory⟩ hallowed
  refine ⟨s, hrun, h.layout.live_apart, fun b hb => ?_⟩
  obtain ⟨hpos, hdvd, -⟩ := h.layout.live_ok b hb
  refine ⟨hpos, hdvd, fun hsmall => (h.layout.live_housed b hb hsmall).resolve_left fun heq => ?_,
    h.known b hb⟩
  exact hpos.ne' (congrArg Region.start heq)

/-- Blocks of 24 bytes come from a pool of 480 bytes, and one of them is used again; blocks of other
sizes come from pools of their own, or from `malloc`. -/
theorem apart_of_run_mixed : ∃ s,
    [.malloc 24 1000, .write 1008 5, .malloc 300 8000, .malloc 17 0, .free ⟨1000, 24⟩ 20,
      .write 8000 6, .malloc 19 0, .malloc 200 20000, .malloc 8 30000].foldlM step
        (new fun _ => 7) = some s ∧ Apart (s.live.map ClientBlock.extent) ∧
      ∀ b ∈ s.live, 0 < b.start ∧ 8 ∣ b.start ∧
        (b.Small → ∃ c ∈ s.chunks, b.extent.Within c) ∧
        ∀ w, b.extent.Covers w → s.pool.memory w = s.known w :=
  apart_of_run _ _ (by decide +kernel)

end Session

end CodeTest.CppNet
