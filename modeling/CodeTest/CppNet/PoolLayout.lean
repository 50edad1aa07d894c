import CodeTest.CppNet.PoolAlloter

/-!
# Where the blocks of the pool allocator are

Blocks of clients, blocks on the free lists and the pool are regions, of which any two have no byte
in common; those that do not come from `malloc` themselves are within a pool that was got from it.
`Layout` says so for the start and the end of the pool and lists of the blocks; it is kept when a
block goes from a free list to a client or back, when blocks are cut off the pool and when there is
a new pool.
-/

namespace CodeTest.CppNet

open Region

/-- The list that blocks of `n` bytes are on. -/
def classOf (n : ℕ) : ℕ := (n + 7) / 8 - 1

theorem wholeWords_of_dvd {n : ℕ} (h : 8 ∣ n) : wholeWords n = n := by
  unfold wholeWords
  omega

theorem wholeWords_eq {n : ℕ} (h : 0 < n) : wholeWords n = (classOf n + 1) * 8 := by
  unfold wholeWords classOf
  omega

theorem classOf_wholeWords (n : ℕ) : classOf (wholeWords n) = classOf n := by
  unfold classOf wholeWords
  omega

theorem wholeWords_le {n : ℕ} (h : n ≤ 256) : wholeWords n ≤ 256 := by
  unfold wholeWords
  omega

theorem dvd_wholeWords (n : ℕ) : 8 ∣ wholeWords n := Dvd.intro_left _ rfl

theorem wholeWords_pos {n : ℕ} (h : 0 < n) : 8 ≤ wholeWords n := by
  unfold wholeWords
  omega

/-- The region of a block on the list `x.1`. -/
def freeRegion (x : ℕ × ℕ) : Region := ⟨x.2, (x.1 + 1) * 8⟩

/-- The client's block did not come from `malloc` itself. -/
def ClientBlock.Small (b : ClientBlock) : Prop := b.size.toNat ≤ 256

/-- The pool, the free blocks and those of the clients. -/
def regions (start stop : ℕ) (live : List ClientBlock) (frees : List (ℕ × ℕ)) : List Region :=
  ⟨start, stop - start⟩ :: (frees.map freeRegion ++ live.map ClientBlock.extent)

/-- The region is within a pool, unless it is that of the pool at the beginning. -/
def Housed (chunks : List Region) (r : Region) : Prop := r = ⟨0, 0⟩ ∨ ∃ c ∈ chunks, r.Within c

theorem Housed.cons {chunks : List Region} {r : Region} (h : Housed chunks r) (c : Region) :
    Housed (c :: chunks) r :=
  Or.imp_right (fun ⟨c', hc', hin⟩ => ⟨c', List.mem_cons_of_mem c hc', hin⟩) h

/-- The blocks of the clients and on the free lists, and the pool from `start` to `stop`. -/
structure Layout (start stop : ℕ) (live : List ClientBlock) (chunks : List Region)
    (frees : List (ℕ × ℕ)) : Prop where
  start_le : start ≤ stop
  stop_le : stop ≤ start + 5120
  start_dvd : 8 ∣ start
  stop_dvd : 8 ∣ stop
  apart : Apart (regions start stop live frees)
  live_ok : ∀ b ∈ live, 0 < b.start ∧ 8 ∣ b.start ∧ 0 < b.size.toNat
  frees_ok : ∀ x ∈ frees, 0 < x.2 ∧ 8 ∣ x.2 ∧ x.1 < 32
  chunk_pos : ∀ c ∈ chunks, 0 < c.start
  pool_housed : Housed chunks ⟨start, stop - start⟩
  frees_housed : ∀ x ∈ frees, Housed chunks (freeRegion x)
  live_housed : ∀ b ∈ live, b.Small → Housed chunks b.extent

namespace Layout

variable {start stop : ℕ} {live : List ClientBlock} {chunks : List Region}
  {frees : List (ℕ × ℕ)} {b : ClientBlock} {size : UInt32}

theorem nil : Layout 0 0 [] [] [] where
  start_le := le_rfl
  stop_le := Nat.zero_le _
  start_dvd := dvd_zero 8
  stop_dvd := dvd_zero 8
  apart := List.pairwise_singleton _ _
  live_ok _ hb := nomatch hb
  frees_ok _ hx := nomatch hx
  chunk_pos _ hc := nomatch hc
  pool_housed := Or.inl rfl
  frees_housed _ hx := nomatch hx
  live_housed _ hb := nomatch hb

theorem extent_eq (hpos : 0 < size.toNat) (p : ℕ) :
    ClientBlock.extent ⟨p, size⟩ = freeRegion (classOf size.toNat, p) := by
  rw [ClientBlock.extent, freeRegion, wholeWords_eq hpos]

/-- A block goes from a free list to a client. -/
theorem take {l₁ l₂ : List (ℕ × ℕ)} {p : ℕ} (hpos : 0 < size.toNat)
    (h : Layout start stop live chunks (l₁ ++ (classOf size.toNat, p) :: l₂)) :
    Layout start stop (⟨p, size⟩ :: live) chunks (l₁ ++ l₂) := by
  have hmem : (classOf size.toNat, p) ∈ l₁ ++ (classOf size.toNat, p) :: l₂ := by simp
  have hsub : l₁ ++ l₂ ⊆ l₁ ++ (classOf size.toNat, p) :: l₂ := by simp
  refine { h with
    apart := h.apart.perm ?_
    live_ok := ?_
    frees_ok := ?_
    frees_housed := ?_
    live_housed := ?_ }
  · rw [regions, regions, List.map_cons, extent_eq hpos, List.map_append, List.map_append,
      List.map_cons]
    refine List.Perm.cons _ ?_
    rw [List.append_assoc, List.append_assoc, List.cons_append]
    refine List.Perm.append_left _ ?_
    exact List.perm_middle.symm
  · intro b hb
    rcases List.mem_cons.mp hb with rfl | hb
    · obtain ⟨hp, hdvd, -⟩ := h.frees_ok _ hmem
      exact ⟨hp, hdvd, hpos⟩
    · exact h.live_ok b hb
  · exact fun x hx => h.frees_ok x (hsub hx)
  · exact fun x hx => h.frees_housed x (hsub hx)
  · intro b hb hsmall
    rcases List.mem_cons.mp hb with rfl | hb
    · exact extent_eq hpos p ▸ h.frees_housed _ hmem
    · exact h.live_housed b hb hsmall

/-- A block goes from a client to a free list. -/
theorem give (h : Layout start stop live chunks frees) (hb : b ∈ live) (hsmall : b.Small) :
    Layout start stop (live.erase b) chunks ((classOf b.size.toNat, b.start) :: frees) := by
  obtain ⟨hp, hdvd, hpos⟩ := h.live_ok b hb
  have hclass : classOf b.size.toNat < 32 := by
    unfold ClientBlock.Small at hsmall
    unfold classOf
    omega
  refine { h with
    apart := h.apart.perm ?_
    live_ok := ?_
    frees_ok := ?_
    frees_housed := ?_
    live_housed := ?_ }
  · rw [regions, regions, List.map_cons, ← extent_eq hpos]
    refine List.Perm.cons _ ?_
    refine ((List.perm_cons_erase hb).map ClientBlock.extent).append_left _ |>.trans ?_
    exact List.perm_middle
  · exact fun b' hb' => h.live_ok b' (List.mem_of_mem_erase hb')
  · intro x hx
    rcases List.mem_cons.mp hx with rfl | hx
    · exact ⟨hp, hdvd, hclass⟩
    · exact h.frees_ok x hx
  · intro x hx
    rcases List.mem_cons.mp hx with rfl | hx
    · exact extent_eq hpos b.start ▸ h.live_housed b hb hsmall
    · exact h.frees_housed x hx
  · exact fun b' hb' => h.live_housed b' (List.mem_of_mem_erase hb')

/-- Blocks are cut off the pool: one for a client and the others for its free list. -/
theorem carve (h : Layout start stop live chunks frees) (hpos : 0 < size.toNat)
    (hsmall : size.toNat ≤ 256) {n : ℕ} (hle : (n + 1) * wholeWords size.toNat ≤ stop - start) :
    Layout (start + (n + 1) * wholeWords size.toNat) stop (⟨start, size⟩ :: live) chunks
      ((pieces (wholeWords size.toNat) (start + wholeWords size.toNat) n).map
        (fun p => (classOf size.toNat, p)) ++ frees) := by
  have hword := wholeWords_pos hpos
  have hfirst : wholeWords size.toNat ≤ (n + 1) * wholeWords size.toNat :=
    Nat.le_mul_of_pos_left _ n.succ_pos
  -- the pool is not empty, so it is one that was got
  obtain ⟨c, hc, hin⟩ : ∃ c ∈ chunks, Region.Within ⟨start, stop - start⟩ c := by
    refine h.pool_housed.resolve_left fun heq => ?_
    have : stop - start = 0 := congrArg Region.length heq
    omega
  have hstart : 0 < start := (h.chunk_pos c hc).trans_le hin.1
  have hpieces : pieces (wholeWords size.toNat) start (n + 1) =
      start :: pieces (wholeWords size.toNat) (start + wholeWords size.toNat) n := rfl
  have hpiece : ∀ p ∈ pieces (wholeWords size.toNat) start (n + 1),
      0 < p ∧ 8 ∣ p ∧ Region.Within ⟨p, wholeWords size.toNat⟩ c := by
    intro p hp
    have hwithin := @piece_within _ _ _ _ (stop - start - (n + 1) * wholeWords size.toNat) hp
    rw [Nat.add_sub_of_le hle] at hwithin
    obtain ⟨i, -, rfl⟩ := mem_pieces hp
    exact ⟨Nat.add_pos_left hstart _,
      dvd_add h.start_dvd (Dvd.dvd.mul_left (dvd_wholeWords _) i), hwithin.trans hin⟩
  have hclass : freeRegion ∘ (fun p => (classOf size.toNat, p)) =
      fun p => (⟨p, wholeWords size.toNat⟩ : Region) := by
    funext p
    rw [Function.comp_apply, freeRegion, wholeWords_eq hpos]
  refine { h with
    start_le := by omega
    stop_le := by have := h.stop_le; omega
    start_dvd := dvd_add h.start_dvd (Dvd.dvd.mul_left (dvd_wholeWords _) _)
    apart := ?_
    live_ok := ?_
    frees_ok := ?_
    pool_housed := Or.inr ⟨c, hc, ?_⟩
    frees_housed := ?_
    live_housed := ?_ }
  · have hcut := h.apart
    rw [regions, ← Nat.add_sub_of_le hle] at hcut
    refine (Apart.carve hcut).perm ?_
    rw [hpieces, List.map_cons, regions, List.map_append, List.map_map, hclass, Nat.sub_sub,
      List.map_cons, List.cons_append, ClientBlock.extent]
    -- the pool comes to the front, and the client's block to those of the clients
    refine (List.Perm.cons _ List.perm_middle).trans ((List.Perm.swap _ _ _).trans ?_)
    rw [← List.append_assoc]
    exact List.Perm.cons _ List.perm_middle.symm
  · intro b hb
    rcases List.mem_cons.mp hb with rfl | hb
    · exact ⟨hstart, h.start_dvd, hpos⟩
    · exact h.live_ok b hb
  · intro x hx
    rcases List.mem_append.mp hx with hx | hx
    · obtain ⟨p, hp, rfl⟩ := List.mem_map.mp hx
      obtain ⟨hp₀, hp₈, -⟩ := hpiece p (hpieces ▸ List.mem_cons_of_mem _ hp)
      refine ⟨hp₀, hp₈, ?_⟩
      show classOf size.toNat < 32
      unfold classOf
      omega
    · exact h.frees_ok x hx
  · refine Within.trans ⟨Nat.le_add_right _ _, ?_⟩ hin
    show start + (n + 1) * wholeWords size.toNat +
      (stop - (start + (n + 1) * wholeWords size.toNat)) ≤ start + (stop - start)
    omega
  · intro x hx
    rcases List.mem_append.mp hx with hx | hx
    · obtain ⟨p, hp, rfl⟩ := List.mem_map.mp hx
      rw [show freeRegion (classOf size.toNat, p) = ⟨p, wholeWords size.toNat⟩ from
        congrFun hclass p]
      exact Or.inr ⟨c, hc, (hpiece p (hpieces ▸ List.mem_cons_of_mem _ hp)).2.2⟩
    · exact h.frees_housed x hx
  · intro b hb hb₁
    rcases List.mem_cons.mp hb with rfl | hb
    · exact Or.inr ⟨c, hc, (hpiece start (hpieces ▸ List.mem_cons_self)).2.2⟩
    · exact h.live_housed b hb hb₁

/-- What `malloc` returns is apart from everything. -/
theorem apart_fresh (h : Layout start stop live chunks frees) {r : Region}
    (hr : ∀ x ∈ chunks ++ live.map ClientBlock.extent, r.Disjoint x) :
    Apart (r :: regions start stop live frees) := by
  have hhoused : ∀ x, Housed chunks x → r.Disjoint x := by
    rintro x (rfl | ⟨c, hc, hin⟩)
    · exact Or.inr (Nat.zero_le _)
    · exact ((hr c (List.mem_append_left _ hc)).symm.of_within hin).symm
  refine List.pairwise_cons.mpr ⟨fun x hx => ?_, h.apart⟩
  rcases List.mem_cons.mp hx with rfl | hx
  · exact hhoused _ h.pool_housed
  · rcases List.mem_append.mp hx with hx | hx
    · obtain ⟨y, hy, rfl⟩ := List.mem_map.mp hx
      exact hhoused _ (h.frees_housed y hy)
    · exact hr x (List.mem_append_right _ hx)

/-- A new pool. -/
theorem renew (h : Layout start stop live chunks frees) {fresh n : ℕ} (hpos : 0 < fresh)
    (hdvd : 8 ∣ fresh) (hn : 8 ∣ n) (hle : n ≤ 5120)
    (hr : ∀ x ∈ chunks ++ live.map ClientBlock.extent, Region.Disjoint ⟨fresh, n⟩ x) :
    Layout fresh (fresh + n) live (⟨fresh, n⟩ :: chunks) frees := by
  refine { h with
    start_le := Nat.le_add_right _ _
    stop_le := by omega
    start_dvd := hdvd
    stop_dvd := dvd_add hdvd hn
    apart := ?_
    chunk_pos := ?_
    pool_housed := Or.inr ⟨⟨fresh, n⟩, List.mem_cons_self, ?_⟩
    frees_housed := fun x hx => Housed.cons (h.frees_housed x hx) _
    live_housed := fun b hb hsmall => Housed.cons (h.live_housed b hb hsmall) _ }
  · rw [regions, Nat.add_sub_cancel_left]
    exact (h.apart_fresh hr).sublist ((List.sublist_cons_self _ _).cons_cons _)
  · intro c hc
    rcases List.mem_cons.mp hc with rfl | hc
    · exact hpos
    · exact h.chunk_pos c hc
  · rw [Nat.add_sub_cancel_left]
    exact ⟨le_rfl, le_rfl⟩

/-- A client gets a block from `malloc` itself. -/
theorem takeLarge (h : Layout start stop live chunks frees) (hlarge : 256 < size.toNat) {fresh : ℕ}
    (hpos : 0 < fresh) (hdvd : 8 ∣ fresh)
    (hr : ∀ x ∈ chunks ++ live.map ClientBlock.extent,
      Region.Disjoint ⟨fresh, wholeWords size.toNat⟩ x) :
    Layout start stop (⟨fresh, size⟩ :: live) chunks frees := by
  refine { h with
    apart := (h.apart_fresh hr).perm ?_
    live_ok := ?_
    live_housed := ?_ }
  · rw [regions, regions, List.map_cons]
    exact (List.Perm.swap _ _ _).trans (List.Perm.cons _ List.perm_middle.symm)
  · intro b hb
    rcases List.mem_cons.mp hb with rfl | hb
    · exact ⟨hpos, hdvd, Nat.zero_lt_of_lt hlarge⟩
    · exact h.live_ok b hb
  · intro b hb hsmall
    rcases List.mem_cons.mp hb with rfl | hb
    · exact absurd hsmall (Nat.not_le.mpr hlarge)
    · exact h.live_housed b hb hsmall

/-- A block goes back to `malloc`. -/
theorem drop (h : Layout start stop live chunks frees) (b : ClientBlock) :
    Layout start stop (live.erase b) chunks frees := by
  have hsub : (live.erase b).Sublist live := List.erase_sublist
  exact { h with
    apart := h.apart.sublist (((hsub.map _).append_left _).cons_cons _)
    live_ok := fun b' hb' => h.live_ok b' (hsub.subset hb')
    live_housed := fun b' hb' => h.live_housed b' (hsub.subset hb') }

/-! ## What is apart -/

theorem pool_free (h : Layout start stop live chunks frees) {x : ℕ × ℕ} (hx : x ∈ frees) :
    Region.Disjoint ⟨start, stop - start⟩ (freeRegion x) :=
  (List.pairwise_cons.mp h.apart).1 _ (List.mem_append_left _ (List.mem_map_of_mem hx))

theorem pool_live (h : Layout start stop live chunks frees) (hb : b ∈ live) :
    Region.Disjoint ⟨start, stop - start⟩ b.extent :=
  (List.pairwise_cons.mp h.apart).1 _ (List.mem_append_right _ (List.mem_map_of_mem hb))

theorem free_live (h : Layout start stop live chunks frees) {x : ℕ × ℕ} (hx : x ∈ frees)
    (hb : b ∈ live) : (freeRegion x).Disjoint b.extent :=
  (List.pairwise_append.mp (List.pairwise_cons.mp h.apart).2).2.2 _ (List.mem_map_of_mem hx) _
    (List.mem_map_of_mem hb)

theorem free_free {l₁ l₂ : List (ℕ × ℕ)} (h : Layout start stop live chunks (l₁ ++ l₂))
    {x y : ℕ × ℕ} (hx : x ∈ l₁) (hy : y ∈ l₂) : (freeRegion x).Disjoint (freeRegion y) := by
  have hfrees := (List.pairwise_append.mp (List.pairwise_cons.mp h.apart).2).1
  rw [List.map_append] at hfrees
  exact (List.pairwise_append.mp hfrees).2.2 _ (List.mem_map_of_mem hx) _ (List.mem_map_of_mem hy)

theorem live_apart (h : Layout start stop live chunks frees) :
    Apart (live.map ClientBlock.extent) :=
  (List.pairwise_append.mp (List.pairwise_cons.mp h.apart).2).2.1

end Layout

theorem freeRegion_covers (x : ℕ × ℕ) : (freeRegion x).Covers x.2 := by
  refine ⟨le_rfl, ?_⟩
  show x.2 < x.2 + (x.1 + 1) * 8
  omega

end CodeTest.CppNet
