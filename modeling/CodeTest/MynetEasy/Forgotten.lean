import CodeTest.MynetEasy.FdList

/-!
# The clients that are forgotten

The list is exact if its entries in use are the open connections, each of them once. When a
connection ends, nothing is moved in the array, because `del_fdlist_element` takes its length for 1,
and the entry that is no longer in use is the last one. So the list stays exact if the connection
that ends is the one of the last entry, and otherwise an open connection is forgotten, for ever.
-/

namespace CodeTest.MynetEasy

variable {s s' : PollServer} {others : Others} {e : Pass} {answers : ℕ → Answer} {i : ℕ} {c fd : ℤ}

/-- The removal from the array does not change it. -/
theorem delFdlistElement_eq (array : List ℤ) (n : ℤ) : delFdlistElement array n = array := rfl

namespace PollServer

/-- The entries in use, which are polled. -/
def polled (s : PollServer) : List ℤ := s.fdList.take s.flag

/-- The entries in use are the open connections. -/
structure Exact (s : PollServer) : Prop where
  nodup : s.polled.Nodup
  mem_iff : ∀ fd, fd ∈ s.polled ↔ fd ∈ s.clients

/-- There is an open connection that is not polled. -/
def Forgotten (s : PollServer) : Prop := ∃ c ∈ s.clients, c ∉ s.polled

/-- The number of entries in use is in the range of the array, and the entries are descriptors that
`int16_t` has. -/
structure Sound (s : PollServer) : Prop where
  length_eq : s.fdList.length = 1024
  flag_le : s.flag ≤ 1024
  range : ∀ fd ∈ s.polled, 0 < fd ∧ fd < 2 ^ 15

theorem Exact.not_forgotten (h : s.Exact) : ¬ s.Forgotten := by
  rintro ⟨c, hc, hnot⟩
  exact hnot ((h.mem_iff c).mpr hc)

theorem Sound.length_polled (h : s.Sound) : s.polled.length = s.flag := by
  rw [polled, List.length_take, h.length_eq]
  exact min_eq_left h.flag_le

/-- The number of entries in use is the number of clients. -/
theorem Exact.flag_eq (h : s.Exact) (hs : s.Sound) : s.flag = s.clients.card := by
  rw [← hs.length_polled, ← List.toFinset_card_of_nodup h.nodup]
  congr 1
  ext fd
  rw [List.mem_toFinset, h.mem_iff]

theorem polled_hangUp (s : PollServer) (fd : ℤ) :
    (s.hangUp fd).polled = s.polled.take (s.flag - 1) := by
  rw [polled, polled, List.take_take, min_eq_left (Nat.sub_le _ _), hangUp, closeSocket,
    delFdlistElement_eq]

theorem mem_of_mem_polled_hangUp (h : c ∈ (s.hangUp fd).polled) : c ∈ s.polled := by
  rw [polled_hangUp] at h
  exact List.mem_of_mem_take h

theorem Sound.hangUp (h : s.Sound) (fd : ℤ) : (s.hangUp fd).Sound where
  length_eq := by
    rw [PollServer.hangUp, closeSocket, delFdlistElement_eq]
    exact h.length_eq
  flag_le := (Nat.sub_le _ _).trans h.flag_le
  range _ hfd := h.range _ (mem_of_mem_polled_hangUp hfd)

end PollServer

/-! ## Receiving from one entry -/

namespace Answer

/-- The received bytes fill the buffer. -/
def Fills : Answer → Prop
  | .data received => 4096 ≤ received.bytes.length
  | _ => False

/-- The connection ends. -/
def Closes : Answer → Prop
  | .data received => PollServer.isClose received.bytes
  | _ => True

instance : ∀ a : Answer, Decidable a.Fills
  | .data received => inferInstanceAs (Decidable (4096 ≤ received.bytes.length))
  | .error => inferInstanceAs (Decidable False)
  | .eof => inferInstanceAs (Decidable False)

instance : ∀ a : Answer, Decidable a.Closes
  | .data received => inferInstanceAs (Decidable (PollServer.isClose received.bytes = true))
  | .error => inferInstanceAs (Decidable True)
  | .eof => inferInstanceAs (Decidable True)

end Answer

namespace PollServer

theorem toInt16_eq (h : 0 < fd ∧ fd < 2 ^ 15) : toInt16 fd = fd := by
  obtain ⟨hpos, hlt⟩ := h
  exact Int.bmod_eq_of_le (by omega) (by omega)

/-- What is done for an entry of the range. -/
theorem poll_eq (hs : s.Sound) (hfd : s.polled[i]? = some fd) (a : Answer) :
    s.poll i a = match s.recv fd a with
      | .data received =>
        if 4096 ≤ received.bytes.length then none
        else if isClose received.bytes then some (s.hangUp fd) else some s
      | _ => some (s.hangUp fd) := by
  have hrange := hs.range fd (List.mem_of_getElem? hfd)
  have hget : s.fdList[i]? = some fd := by
    rw [polled, List.getElem?_take] at hfd
    split_ifs at hfd
    exact hfd
  simp only [poll, hget, Option.bind_eq_bind, Option.bind_some, toInt16_eq hrange]
  rw [if_neg (not_le.mpr hrange.1)]
  cases s.recv fd a <;> rfl

/-- A connection ends, or nothing changes. -/
theorem poll_cases (hs : s.Sound) (hfd : s.polled[i]? = some fd) {a : Answer}
    (h : s.poll i a = some s') : s' = s ∨ s' = s.hangUp fd := by
  rw [poll_eq hs hfd] at h
  split at h
  · split_ifs at h
    · exact .inr (Option.some_inj.mp h).symm
    · exact .inl (Option.some_inj.mp h).symm
  · exact .inr (Option.some_inj.mp h).symm

/-- What is done for an open connection. -/
theorem poll_open (hs : s.Sound) (hfd : s.polled[i]? = some fd) (hopen : fd ∈ s.clients)
    (a : Answer) :
    s.poll i a = if a.Fills then none else if a.Closes then some (s.hangUp fd) else some s := by
  rw [poll_eq hs hfd, recv, if_pos hopen]
  cases a with
  | error => simp [Answer.Fills, Answer.Closes]
  | eof => simp [Answer.Fills, Answer.Closes]
  | data received => rfl

/-! ## Receiving from the entries one after the other -/

/-- A client that is forgotten stays so, since the entries that are polled are those of others. -/
theorem Forgotten.hangUp (h : s.Forgotten) (hfd : fd ∈ s.polled) : (s.hangUp fd).Forgotten := by
  obtain ⟨c, hc, hnot⟩ := h
  refine ⟨c, ?_, fun hmem => hnot (mem_of_mem_polled_hangUp hmem)⟩
  apply Finset.mem_erase.mpr
  refine ⟨?_, hc⟩
  rintro rfl
  exact hnot hfd

theorem exists_polled (hs : s.Sound) (hi : i < s.flag) : ∃ fd, s.polled[i]? = some fd := by
  rw [← hs.length_polled] at hi
  exact ⟨_, List.getElem?_eq_getElem hi⟩

theorem Forgotten.scan {fuel : ℕ} (h : s.Forgotten) (hs : s.Sound)
    (hscan : PollServer.scan answers fuel i s = some s') : s'.Forgotten ∧ s'.Sound := by
  induction fuel generalizing i s with
  | zero =>
    cases hscan
    exact ⟨h, hs⟩
  | succ fuel ih =>
    rw [PollServer.scan] at hscan
    split_ifs at hscan with hi
    · obtain ⟨s₁, hpoll, hscan⟩ := Option.bind_eq_some_iff.mp hscan
      obtain ⟨fd, hfd⟩ := exists_polled hs hi
      rcases poll_cases hs hfd hpoll with hs₁ | hs₁
      · rw [hs₁] at hscan
        exact ih h hs hscan
      · rw [hs₁] at hscan
        exact ih (h.hangUp (List.mem_of_getElem? hfd)) (hs.hangUp fd) hscan
    · cases hscan
      exact ⟨h, hs⟩

/-- The last entry, and the entries that are left when a connection ends. -/
theorem Sound.polled_eq_append (hs : s.Sound) (hi : i < s.flag) :
    ∃ L c, s.polled = L ++ [c] ∧ L.length + 1 = s.flag ∧ ∀ fd, (s.hangUp fd).polled = L := by
  have hlength := hs.length_polled
  rcases List.eq_nil_or_concat s.polled with hnil | ⟨L, c, hL⟩
  · rw [hnil, List.length_nil] at hlength
    omega
  · rw [List.concat_eq_append] at hL
    rw [hL, List.length_append, List.length_singleton] at hlength
    refine ⟨L, c, hL, hlength, ?_⟩
    intro fd
    rw [polled_hangUp, hL]
    exact List.take_left' (by omega)

/-- An entry that is not the last one is closed: the client of the last one is forgotten. -/
theorem Exact.forgotten_hangUp (h : s.Exact) (hs : s.Sound) (hfd : s.polled[i]? = some fd)
    (hi : i + 1 < s.flag) : (s.hangUp fd).Forgotten := by
  obtain ⟨L, c, hL, hlength, hpolled⟩ := hs.polled_eq_append (Nat.lt_of_succ_lt hi)
  have hc : c ∉ L := by
    have hnd := h.nodup
    rw [hL] at hnd
    exact fun hc => (List.nodup_append.mp hnd).2.2 c hc c (List.mem_singleton_self c) rfl
  have hfdL : fd ∈ L := by
    rw [hL, List.getElem?_append_left (by omega)] at hfd
    exact List.mem_of_getElem? hfd
  refine ⟨c, Finset.mem_erase.mpr ⟨?_, ?_⟩, ?_⟩
  · rintro rfl
    exact hc hfdL
  · rw [← h.mem_iff, hL]
    exact List.mem_append_right _ (List.mem_singleton_self c)
  · rw [hpolled]
    exact hc

/-- The last entry is closed. -/
theorem Exact.hangUp (h : s.Exact) (hs : s.Sound) (hfd : s.polled[i]? = some fd)
    (hi : i + 1 = s.flag) : (s.hangUp fd).Exact := by
  obtain ⟨L, c, hL, hlength, hpolled⟩ := hs.polled_eq_append (i := i) (by omega)
  obtain rfl : i = L.length := by omega
  obtain rfl : c = fd := by simpa [hL] using hfd
  have hnd := h.nodup
  rw [hL, List.nodup_append] at hnd
  constructor
  · rw [hpolled]
    exact hnd.1
  · intro d
    rw [hpolled]
    show d ∈ L ↔ d ∈ s.clients.erase c
    rw [Finset.mem_erase, ← h.mem_iff, hL, List.mem_append, List.mem_singleton]
    constructor
    · intro hd
      exact ⟨hnd.2.2 d hd c (List.mem_singleton_self c), .inl hd⟩
    · rintro ⟨hne, hd | hd⟩
      · exact hd
      · exact absurd hd hne

/-- From the entry `i` on no connection ends but that of the last entry, and no received bytes fill
the buffer. -/
def OrderlyFrom (answers : ℕ → Answer) (n i : ℕ) : Prop :=
  ∀ j, i ≤ j → j < n → ¬ (answers j).Fills ∧ ((answers j).Closes → j + 1 = n)

/-- An entry for which nothing changes. -/
theorem orderlyFrom_succ_iff {n : ℕ} (hfills : ¬ (answers i).Fills)
    (hcloses : ¬ (answers i).Closes) :
    OrderlyFrom answers n i ↔ OrderlyFrom answers n (i + 1) := by
  constructor
  · intro horderly j hij hj
    exact horderly j (Nat.le_of_succ_le hij) hj
  · intro horderly j hij hj
    rcases Nat.eq_or_lt_of_le hij with rfl | hij
    · exact ⟨hfills, fun hc => absurd hc hcloses⟩
    · exact horderly j hij hj

/-- A connection that ends is that of the last entry, or one that has others after it. -/
theorem orderlyFrom_iff_of_closes {n : ℕ} (hfills : ¬ (answers i).Fills)
    (hcloses : (answers i).Closes) (hi : i < n) : OrderlyFrom answers n i ↔ i + 1 = n := by
  constructor
  · intro horderly
    exact (horderly i le_rfl hi).2 hcloses
  · intro hlast j hij hj
    obtain rfl : j = i := by omega
    exact ⟨hfills, fun _ => hlast⟩

/-- **The loop over an exact list**: it ends, and the list is exact, if the connections end in that
way. Otherwise the loop does not end, or a client is forgotten. -/
theorem Exact.scan {fuel : ℕ} (h : s.Exact) (hs : s.Sound) (hfuel : s.flag = i + fuel) :
    (OrderlyFrom answers s.flag i →
      ∃ s', PollServer.scan answers fuel i s = some s' ∧ s'.Exact ∧ s'.Sound) ∧
    (¬ OrderlyFrom answers s.flag i →
      ∀ s', PollServer.scan answers fuel i s = some s' → s'.Forgotten ∧ s'.Sound) := by
  induction fuel generalizing i with
  | zero =>
    constructor
    · intro _
      exact ⟨s, rfl, h, hs⟩
    · intro hnot
      refine absurd ?_ hnot
      intro j hij hj
      omega
  | succ fuel ih =>
    have hi : i < s.flag := by omega
    obtain ⟨fd, hfd⟩ := exists_polled hs hi
    have hopen := (h.mem_iff fd).mp (List.mem_of_getElem? hfd)
    rw [PollServer.scan, if_pos hi, poll_open hs hfd hopen]
    by_cases hfills : (answers i).Fills
    · rw [if_pos hfills]
      constructor
      · intro horderly
        exact absurd hfills (horderly i le_rfl hi).1
      · rintro - s' ⟨⟩
    rw [if_neg hfills]
    by_cases hcloses : (answers i).Closes
    · rw [if_pos hcloses, orderlyFrom_iff_of_closes hfills hcloses hi]
      constructor
      · intro hlast
        obtain rfl : fuel = 0 := by omega
        exact ⟨_, rfl, h.hangUp hs hfd hlast, hs.hangUp fd⟩
      · intro hlast s' hscan
        have hlt : i + 1 < s.flag := lt_of_le_of_ne hi hlast
        exact (h.forgotten_hangUp hs hfd hlt).scan (hs.hangUp fd) hscan
    · rw [if_neg hcloses, orderlyFrom_succ_iff hfills hcloses]
      exact ih (by omega)

/-! ## Accepting a connection -/

/-- The descriptor of a new connection is the lowest one that is not in use, and there are fewer
than 1024 clients with it. -/
def Valid (others : Others) (s : PollServer) (e : Pass) : Prop :=
  ∀ fd ∈ e.accepted, 0 ≤ fd ∧ fd ∉ s.clients ∧ fd ∉ others.fds ∧
    (∀ d < fd.toNat, (d : ℤ) ∈ s.clients ∨ (d : ℤ) ∈ others.fds) ∧ s.clients.card + 1 < 1024

/-- A new descriptor is one that `int16_t` has. -/
theorem Valid.range (h : Valid others s e) (hfd : fd ∈ e.accepted) : 0 < fd ∧ fd < 2 ^ 15 := by
  obtain ⟨hnonneg, -, hothers, hlowest, hcard⟩ := h fd hfd
  have hne : fd ≠ 0 := by
    rintro rfl
    exact hothers others.zero_mem
  -- the lower descriptors are in use
  have hle : fd.toNat ≤ (s.clients ∪ others.fds).card := by
    rw [← Finset.card_range fd.toNat, ← Finset.card_map (Nat.castEmbedding : ℕ ↪ ℤ)]
    apply Finset.card_le_card
    intro d hd
    obtain ⟨k, hk, rfl⟩ := Finset.mem_map.mp hd
    exact Finset.mem_union.mpr (hlowest k (Finset.mem_range.mp hk))
  have hunion := Finset.card_union_le s.clients others.fds
  have hothers := others.card_le
  constructor <;> omega

/-- The state after a new connection. -/
def accepted (s : PollServer) (fd : ℤ) : PollServer :=
  ⟨s.fdList.set s.flag fd, s.flag + 1, insert fd s.clients⟩

theorem polled_accepted (hs : s.Sound) (hlt : s.flag < 1024) (fd : ℤ) :
    (s.accepted fd).polled = s.polled ++ [fd] := by
  have hlength := hs.length_eq
  rw [polled, polled, accepted, List.take_add_one, List.take_set_of_le le_rfl]
  simp [hlength, hlt]

theorem Sound.accepted (hs : s.Sound) (hlt : s.flag < 1024) (hfd : 0 < fd ∧ fd < 2 ^ 15) :
    (s.accepted fd).Sound where
  length_eq := by
    rw [PollServer.accepted, List.length_set]
    exact hs.length_eq
  flag_le := hlt
  range d hd := by
    rw [polled_accepted hs hlt, List.mem_append, List.mem_singleton] at hd
    rcases hd with hd | rfl
    · exact hs.range d hd
    · exact hfd

theorem accept_some (hs : s.Sound) (fd : ℤ) :
    s.accept (some fd) = if s.flag < 1024 then some (s.accepted fd) else none := by
  rw [accept, hs.length_eq]
  rfl

/-- A client that is forgotten stays so. -/
theorem Forgotten.accept (h : s.Forgotten) (hs : s.Sound) (hvalid : Valid others s e)
    (haccept : s.accept e.accepted = some s') : s'.Forgotten ∧ s'.Sound := by
  cases hacc : e.accepted with
  | none =>
    rw [hacc] at haccept
    cases haccept
    exact ⟨h, hs⟩
  | some fd =>
    rw [hacc, accept_some hs] at haccept
    split_ifs at haccept with hlt
    cases haccept
    obtain ⟨c, hc, hnot⟩ := h
    refine ⟨⟨c, Finset.mem_insert_of_mem hc, ?_⟩, hs.accepted hlt (hvalid.range hacc)⟩
    rw [polled_accepted hs hlt, List.mem_append, List.mem_singleton]
    rintro (hmem | rfl)
    · exact hnot hmem
    · exact (hvalid c hacc).2.1 hc

/-- The list with the new connection is exact. -/
theorem Exact.accept (h : s.Exact) (hs : s.Sound) (hvalid : Valid others s e) :
    ∃ s', s.accept e.accepted = some s' ∧ s'.Exact ∧ s'.Sound ∧
      s'.flag = s.flag + e.accepted.toList.length := by
  cases hacc : e.accepted with
  | none => exact ⟨s, rfl, h, hs, rfl⟩
  | some fd =>
    obtain ⟨-, hnew, -, -, hcard⟩ := hvalid fd hacc
    have hlt : s.flag < 1024 := by
      have := h.flag_eq hs
      omega
    refine ⟨s.accepted fd, ?_, ?_, hs.accepted hlt (hvalid.range hacc), rfl⟩
    · rw [accept_some hs, if_pos hlt]
    · have hnot : fd ∉ s.polled := fun hmem => hnew ((h.mem_iff fd).mp hmem)
      constructor
      · rw [polled_accepted hs hlt, ← List.concat_eq_append]
        exact h.nodup.concat hnot
      · intro d
        rw [polled_accepted hs hlt, List.mem_append, List.mem_singleton, h.mem_iff, or_comm]
        exact Finset.mem_insert.symm

/-! ## Passes -/

/-- In a pass no connection ends but that of the last entry, and no received bytes fill the
buffer. -/
def Orderly (s : PollServer) (e : Pass) : Prop :=
  ∀ i < s.flag + e.accepted.toList.length,
    ¬ (e.answers i).Fills ∧
      ((e.answers i).Closes → i + 1 = s.flag + e.accepted.toList.length)

instance (s : PollServer) (e : Pass) : Decidable (s.Orderly e) :=
  inferInstanceAs (Decidable (∀ i < _, _ ∧ (_ → _)))

theorem orderly_iff (h : s'.flag = s.flag + e.accepted.toList.length) :
    s.Orderly e ↔ OrderlyFrom e.answers s'.flag 0 := by
  rw [Orderly, OrderlyFrom, h]
  exact forall_congr' fun i => ⟨fun hi _ => hi, fun hi => hi (Nat.zero_le i)⟩

/-- A pass over an exact list. -/
theorem Exact.step (h : s.Exact) (hs : s.Sound) (hvalid : Valid others s e) :
    (s.Orderly e → ∃ s', s.step e = some s' ∧ s'.Exact ∧ s'.Sound) ∧
    (¬ s.Orderly e → ∀ s', s.step e = some s' → s'.Forgotten ∧ s'.Sound) := by
  obtain ⟨s₁, haccept, h₁, hs₁, hflag⟩ := h.accept hs hvalid
  rw [orderly_iff hflag, PollServer.step, haccept]
  exact h₁.scan hs₁ (Nat.zero_add _).symm

theorem Forgotten.step (h : s.Forgotten) (hs : s.Sound) (hvalid : Valid others s e)
    (hstep : s.step e = some s') : s'.Forgotten ∧ s'.Sound := by
  obtain ⟨s₁, haccept, hscan⟩ := Option.bind_eq_some_iff.mp hstep
  obtain ⟨h₁, hs₁⟩ := h.accept hs hvalid haccept
  exact h₁.scan hs₁ hscan

end PollServer

open PollServer

theorem init_sound {heap : List ℤ} (hheap : heap.length = 1024) : (init heap).Sound where
  length_eq := by
    rw [init, List.length_set, hheap]
  flag_le := Nat.zero_le _
  range _ h := absurd h List.not_mem_nil

theorem init_exact (heap : List ℤ) : (init heap).Exact where
  nodup := List.nodup_nil
  mem_iff _ := iff_of_false List.not_mem_nil (Finset.notMem_empty _)

/-- From an exact list. -/
theorem exists_exact_iff {es : List Pass} (h : s.Exact) (hs : s.Sound)
    (hes : PartialMachine.Meets step (Valid others) s es) :
    (∃ s', es.foldlM step s = some s' ∧ s'.Exact) ↔ PartialMachine.Meets step Orderly s es := by
  induction es generalizing s with
  | nil => exact iff_of_true ⟨s, rfl, h⟩ trivial
  | cons e es ih =>
    obtain ⟨hvalid, hes⟩ := hes
    obtain ⟨hgood, hbad⟩ := h.step hs hvalid
    rw [List.foldlM_cons]
    by_cases horderly : s.Orderly e
    · obtain ⟨s₁, hstep, h₁, hs₁⟩ := hgood horderly
      have hih := ih h₁ hs₁ (hes s₁ hstep)
      rw [hstep]
      constructor
      · intro hrun
        refine ⟨horderly, ?_⟩
        rintro s₂ hs₂
        cases hstep.symm.trans hs₂
        exact hih.mp hrun
      · rintro ⟨-, hmeets⟩
        exact hih.mpr (hmeets s₁ hstep)
    · refine iff_of_false ?_ fun hmeets => horderly hmeets.1
      rintro ⟨s', hrun, hexact⟩
      obtain ⟨s₁, hstep, hrun⟩ := Option.bind_eq_some_iff.mp hrun
      have h₁ := hbad horderly s₁ hstep
      have hkept : ∀ s e s', s.Forgotten ∧ s.Sound → Valid others s e → s.step e = some s' →
          s'.Forgotten ∧ s'.Sound :=
        fun s e s' hs hvalid hstep => hs.1.step hs.2 hvalid hstep
      have hforgotten := PartialMachine.run_invariant hkept h₁ (hes s₁ hstep) hrun
      exact hexact.not_forgotten hforgotten.1

/-- **When the list is exact**: after a run of the server the entries in use are the open
connections, each of them once, exactly if in every pass no connection ended but that of the last
entry, and no received bytes filled the buffer. -/
theorem exact_run_iff (others : Others) (heap : List ℤ) (hheap : heap.length = 1024)
    (es : List Pass) (hes : PartialMachine.Meets step (Valid others) (init heap) es) :
    (∃ s, es.foldlM step (init heap) = some s ∧ s.Exact) ↔
      PartialMachine.Meets step Orderly (init heap) es :=
  exists_exact_iff (init_exact heap) (init_sound hheap) hes

/-! ## Two clients -/

/-- The standard streams and the socket of the server. -/
def standard : Others := ⟨{0, 1, 2, 3}, by decide, by decide⟩

/-- The text `close` and the end of the line. -/
def closeReceived : Received := ⟨closeText, by decide, by decide⟩

/-- A line of another text. -/
def hello : Received := ⟨[104, 105, 10], by decide, by decide⟩

/-- A pass in which the entry `i` is told to close, and from the others a line is received. -/
def closing (accepted : Option ℤ) (i : ℕ) : Pass :=
  ⟨accepted, fun j => .data (if j = i then closeReceived else hello)⟩

instance (others : Others) (s : PollServer) (e : Pass) : Decidable (Valid others s e) :=
  inferInstanceAs (Decidable (∀ fd ∈ e.accepted, _))

/-- Two clients come, the last one goes, another one comes and gets its descriptor. -/
theorem exact_run_two_clients :
    ∃ s, [closing (some 4) 9, closing (some 5) 9, closing none 1, closing (some 5) 9].foldlM step
      (init (List.replicate 1024 7)) = some s ∧ s.Exact :=
  (exact_run_iff standard _ (by decide +kernel) _ (by decide +kernel)).mpr (by decide +kernel)

/-- Two clients come and the first one goes: it is still polled, and the other one is not. -/
theorem exact_run_first_closed :
    ¬ ∀ (others : Others) (heap : List ℤ), heap.length = 1024 → ∀ es : List Pass,
      PartialMachine.Meets step (Valid others) (init heap) es →
        ∃ s, es.foldlM step (init heap) = some s ∧ s.Exact := by
  intro hall
  obtain ⟨s, hrun, hexact⟩ := hall standard (List.replicate 1024 7) (by decide +kernel)
    [closing (some 4) 9, closing (some 5) 0] (by decide +kernel)
  have hclient : ([closing (some 4) 9, closing (some 5) 0].foldlM step
      (init (List.replicate 1024 7))).map (fun s => decide (5 ∈ s.clients ∧ 5 ∉ s.polled)) =
      some true := by
    decide +kernel
  rw [hrun, Option.map_some, Option.some_inj, decide_eq_true_eq] at hclient
  exact hexact.not_forgotten ⟨5, hclient⟩

end CodeTest.MynetEasy
