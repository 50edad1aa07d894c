import CodeTest.NtyReactor.Callbacks

/-!
# The bounds of the arrays

The callbacks of a slot index the array by the descriptor of the slot, and that is the index of the
slot (`Indexed`). So an access can be out of range in two places only. `accept_callback` looks for a
slot that is free, and then takes the one of the new descriptor, which need not be the one found;
`recv_callback` puts a NUL behind the bytes received, which may fill the buffer. `run_inBounds_iff`
says when neither happens.

The search for a free slot does not protect the array. A descriptor that is open from the start and
waits for nothing, such as that of the epoll instance, keeps its slot free for ever
(`exists_free_slot`), and the descriptors run out at the end of the array.
-/

namespace CodeTest.Nty

open NtyEvent NtyReactor

/-- The slot `k` is of the descriptor `k`, once it is set. -/
def Indexed (r : NtyReactor) : Prop :=
  ∀ k, (r.events k).callback ≠ none → (r.events k).fd = k ∧ k < maxEpollEvents

/-- A connection that is accepted, while a slot is free and `fcntl` succeeds, has a descriptor below
the size of the array: one is unused. The bytes received leave room for the NUL. -/
def Fits (r : NtyReactor) (e : Ready) : Prop :=
  (r.events e.slot).events = e.flag →
    match (r.events e.slot).callback with
    | some .acceptCallback =>
      (∃ i < maxEpollEvents, (r.events i).status = 0) → (∃ flag ≥ 0, e.accept = some flag) →
        ∃ d < maxEpollEvents, d ∉ r.opened
    | some .recvCallback => ∀ bytes, e.recv = some bytes → bytes.length < maxBufferSize
    | _ => True

theorem leastUnused_notMem (opened : Finset ℕ) : leastUnused opened ∉ opened :=
  Nat.find_spec (Infinite.exists_notMem_finset opened)

theorem leastUnused_lt_iff {opened : Finset ℕ} {n : ℕ} :
    leastUnused opened < n ↔ ∃ d < n, d ∉ opened :=
  Nat.find_lt_iff _ n

theorem leastUnused_range (n : ℕ) : leastUnused (Finset.range n) = n := by
  rw [leastUnused, Nat.find_eq_iff]
  simp

/-! ## The slots -/

section Slots

variable (r : NtyReactor) {k : ℕ}

theorem event_of_lt (h : k < maxEpollEvents) : r.event k = some (r.events k) := if_pos h

theorem event_of_ge (h : ¬ k < maxEpollEvents) : r.event k = none := if_neg h

theorem setEvent_of_lt (h : k < maxEpollEvents) (ev : NtyEvent) :
    r.setEvent k ev = some { r with events := Function.update r.events k ev } := if_pos h

@[simp] theorem ntyEventSet_fd (ev : NtyEvent) (fd : ℕ) (event : Epoll) (length status : ℕ)
    (callback : Callback) : (ev.ntyEventSet fd event length status callback).fd = fd := rfl

@[simp] theorem ntyEventAdd_fd (ev : NtyEvent) : ev.ntyEventAdd.fd = ev.fd := by
  unfold ntyEventAdd
  split_ifs <;> rfl

@[simp] theorem ntyEventDel_fd (ev : NtyEvent) : ev.ntyEventDel.fd = ev.fd := by
  unfold ntyEventDel
  split_ifs <;> rfl

theorem setBuffer_of_lt (ev : NtyEvent) {i : ℕ} (h : i < maxBufferSize) (b : UInt8) :
    ev.setBuffer i b = some { ev with buffer := Function.update ev.buffer i b } := if_pos h

theorem setBuffer_of_ge (ev : NtyEvent) {i : ℕ} (h : ¬ i < maxBufferSize) (b : UInt8) :
    ev.setBuffer i b = none := if_neg h

/-- The search of `accept_callback` finds a slot if there is one. -/
theorem find?_free_eq_none_iff :
    ((List.range maxEpollEvents).find? fun i => (r.events i).status = 0) = none ↔
      ¬ ∃ i < maxEpollEvents, (r.events i).status = 0 := by
  simp

end Slots

/-! ## What a callback does -/

/-- What changes is one slot, that of an unused descriptor or one that is set already, and no
descriptor is closed but that of a slot that is set. -/
structure Moves (r r' : NtyReactor) : Prop where
  slot : ∀ k, r'.events k ≠ r.events k →
    k < maxEpollEvents ∧ (r'.events k).fd = k ∧ (k ∉ r.opened ∨ (r.events k).callback ≠ none)
  opened : ∀ k ∈ r.opened, k ∈ r'.opened ∨ (r.events k).callback ≠ none

variable {r r' : NtyReactor} {fd : ℕ}

theorem Moves.refl (r : NtyReactor) : Moves r r := ⟨fun _ h => absurd rfl h, fun _ => .inl⟩

/-- A slot is set to the descriptor that is its index. -/
theorem Moves.update {k : ℕ} (hk : k < maxEpollEvents) {ev : NtyEvent} (hfd : ev.fd = k)
    (hslot : k ∉ r.opened ∨ (r.events k).callback ≠ none) (hevents : r'.events =
      Function.update r.events k ev)
    (hopened : ∀ k ∈ r.opened, k ∈ r'.opened ∨ (r.events k).callback ≠ none) : Moves r r' := by
  refine ⟨fun i hi => ?_, hopened⟩
  rw [hevents] at hi ⊢
  by_cases h : i = k
  · subst h
    rw [Function.update_self]
    exact ⟨hk, hfd, hslot⟩
  · rw [Function.update_of_ne h] at hi
    exact absurd rfl hi

/-- A call has a result under the condition `P` and only then, and changes no more than a callback
may. -/
structure Does (r : NtyReactor) (P : Prop) (result : Option NtyReactor) : Prop where
  isSome_iff : result.isSome ↔ P
  moves : ∀ r', result = some r' → Moves r r'

theorem Does.some {P : Prop} (hP : P) (h : Moves r r') : Does r P (some r') :=
  ⟨iff_of_true rfl hP, fun _ h' => Option.some.inj h' ▸ h⟩

theorem Does.none {P : Prop} (hP : ¬ P) : Does r P none :=
  ⟨iff_of_false (by simp) hP, fun _ h' => nomatch h'⟩

/-- `accept_callback` where `accept` succeeds. -/
theorem acceptCallback_some (hfd : fd < maxEpollEvents) (flag : ℤ) :
    r.acceptCallback fd (some flag) =
      if (∃ i < maxEpollEvents, (r.events i).status = 0) ∧ 0 ≤ flag then
        if leastUnused r.opened < maxEpollEvents then
          some { r with
            opened := insert (leastUnused r.opened) r.opened
            events := Function.update r.events (leastUnused r.opened)
              ((r.events (leastUnused r.opened)).ntyEventSet (leastUnused r.opened) .epollin 0 0
                .recvCallback).ntyEventAdd }
        else
          none
      else
        some { r with opened := insert (leastUnused r.opened) r.opened } := by
  have hiff := find?_free_eq_none_iff r
  unfold NtyReactor.acceptCallback
  simp only [event_of_lt r hfd, Option.bind_eq_bind, Option.bind_some]
  cases hfind : (List.range maxEpollEvents).find? fun i => (r.events i).status = 0 with
  | none =>
    have hfull : ¬ ((∃ i < maxEpollEvents, (r.events i).status = 0) ∧ 0 ≤ flag) := fun h =>
      hiff.mp hfind h.1
    rw [if_neg hfull]
  | some i =>
    have hfree : ∃ i < maxEpollEvents, (r.events i).status = 0 := by
      by_contra hnone
      rw [hiff.mpr hnone] at hfind
      cases hfind
    dsimp only
    by_cases hflag : flag < 0
    · have hnot : ¬ ((∃ i < maxEpollEvents, (r.events i).status = 0) ∧ 0 ≤ flag) := fun h =>
        not_le.mpr hflag h.2
      rw [if_pos hflag, if_neg hnot]
    · rw [if_neg hflag, if_pos ⟨hfree, not_lt.mp hflag⟩]
      split_ifs with hlt
      · rw [event_of_lt _ hlt, Option.bind_some, setEvent_of_lt _ hlt]
      · rw [event_of_ge _ hlt, Option.bind_none]

/-- A new connection takes the slot of its descriptor. -/
theorem acceptCallback_does (hfd : fd < maxEpollEvents) (answer : Option ℤ) :
    Does r ((∃ i < maxEpollEvents, (r.events i).status = 0) →
        (∃ flag ≥ 0, answer = .some flag) → ∃ d < maxEpollEvents, d ∉ r.opened)
      (r.acceptCallback fd answer) := by
  have hopened : ∀ k ∈ r.opened,
      k ∈ insert (leastUnused r.opened) r.opened ∨ (r.events k).callback ≠ Option.none :=
    fun k hk => .inl (Finset.mem_insert_of_mem hk)
  cases answer with
  | none =>
    rw [NtyReactor.acceptCallback, event_of_lt r hfd]
    exact .some (by simp) (.refl r)
  | some flag =>
    rw [acceptCallback_some hfd, ← leastUnused_lt_iff]
    split_ifs with hroom hlt
    · exact .some (fun _ _ => hlt)
        (.update hlt (by simp) (.inl (leastUnused_notMem _)) rfl hopened)
    · exact .none fun h => hlt (h hroom.1 ⟨flag, hroom.2, rfl⟩)
    · refine .some (fun hfree h => ?_) ⟨fun _ h => absurd rfl h, hopened⟩
      obtain ⟨flag', hge, heq⟩ := h
      cases heq
      exact absurd ⟨hfree, hge⟩ hroom

theorem mem_close {k : ℕ} (hk : k ∈ r.opened) (hslot : (r.events fd).callback ≠ none) :
    k ∈ r.opened.erase fd ∨ (r.events k).callback ≠ none := by
  by_cases h : k = fd
  · exact .inr (h ▸ hslot)
  · exact .inl (Finset.mem_erase_of_ne_of_mem h hk)

/-- The NUL is put behind the bytes received. -/
theorem recvCallback_does (hfd : fd < maxEpollEvents) (hindex : (r.events fd).fd = fd)
    (hslot : (r.events fd).callback ≠ none) (answer : Option (List UInt8)) :
    Does r (∀ bytes, answer = some bytes → bytes.length < maxBufferSize)
      (r.recvCallback fd answer) := by
  have hdel : (r.events fd).ntyEventDel.fd = fd := (ntyEventDel_fd _).trans hindex
  have hclose : Moves r (NtyReactor.close
      { r with events := Function.update r.events fd (r.events fd).ntyEventDel } fd) :=
    .update hfd hdel (.inr hslot) rfl fun k hk => mem_close hk hslot
  unfold NtyReactor.recvCallback
  rw [event_of_lt r hfd]
  simp only [Option.bind_eq_bind, Option.bind_some, setEvent_of_lt _ hfd, hdel]
  cases answer with
  | none => exact .some (by simp) hclose
  | some bytes =>
    dsimp only
    by_cases hclosed : bytes.length = 0
    · rw [if_pos hclosed]
      refine .some (fun bytes' h => ?_) hclose
      cases h
      rw [hclosed]
      decide
    · rw [if_neg hclosed]
      by_cases hlt : bytes.length < maxBufferSize
      · rw [setBuffer_of_lt _ hlt, Option.bind_some]
        refine .some (fun bytes' h => ?_)
          (.update hfd (by simpa [received] using hindex) (.inr hslot) rfl fun k hk => .inl hk)
        cases h
        exact hlt
      · rw [setBuffer_of_ge _ hlt, Option.bind_none]
        exact .none fun h => hlt (h bytes rfl)

theorem sendCallback_does (hfd : fd < maxEpollEvents) (hindex : (r.events fd).fd = fd)
    (hslot : (r.events fd).callback ≠ none) (rc : ℤ) :
    Does r True (r.sendCallback fd rc) := by
  unfold NtyReactor.sendCallback
  rw [event_of_lt r hfd]
  simp only [Option.bind_eq_bind, Option.bind_some, setEvent_of_lt _ hfd, hindex]
  split_ifs
  · exact .some trivial (.update hfd (by simp) (.inr hslot) rfl fun k hk => .inl hk)
  · exact .some trivial
      (.update hfd (by simpa using hindex) (.inr hslot) rfl fun k hk => mem_close hk hslot)

/-! ## Steps and runs -/

theorem Indexed.moves (h : Indexed r) (hmoves : Moves r r') : Indexed r' := by
  intro k hk
  by_cases heq : r'.events k = r.events k
  · rw [heq] at hk ⊢
    exact h k hk
  · obtain ⟨hlt, hfd, -⟩ := hmoves.slot k heq
    exact ⟨hfd, hlt⟩

/-- A step has a result where it fits, and only there. -/
theorem step_does (h : Indexed r) (e : Ready) : Does r (Fits r e) (step r e) := by
  unfold step Fits
  by_cases hflag : (r.events e.slot).events = e.flag
  · simp only [hflag, if_true, true_imp_iff]
    cases hcallback : (r.events e.slot).callback with
    | none => exact .some trivial (.refl r)
    | some callback =>
      have hslot : (r.events e.slot).callback ≠ none := by simp [hcallback]
      obtain ⟨hindex, hlt⟩ := h e.slot hslot
      simp only [hindex]
      cases callback with
      | acceptCallback => exact acceptCallback_does hlt e.accept
      | recvCallback => exact recvCallback_does hlt hindex hslot e.recv
      | sendCallback => exact sendCallback_does hlt hindex hslot e.send
  · simp only [hflag, if_false, false_imp_iff]
    exact .some trivial (.refl r)

theorem isSome_foldlM_step_iff (h : Indexed r) (es : List Ready) :
    (es.foldlM step r).isSome ↔ PartialMachine.Meets step Fits r es :=
  PartialMachine.isSome_run_iff (fun _ e h => (step_does h e).isSome_iff)
    (fun _ e r' h hr' => h.moves ((step_does h e).moves r' hr')) h

/-- With the listener added, its slot is the only one that is set. -/
theorem addlistener_cases {junk : ℕ → NtyEvent} {opened : Finset ℕ} {sockFd : ℕ}
    {callback : Callback}
    (h : (NtyReactor.init junk opened).ntyreactorAddlistener sockFd callback = some r) :
    sockFd < maxEpollEvents ∧ r.opened = opened ∧
      ((r.events sockFd).fd = sockFd ∧ (r.events sockFd).events = .epollin ∧
        (r.events sockFd).callback = callback) ∧
      ∀ k ≠ sockFd, (r.events k).callback = none ∧ (r.events k).status = 0 := by
  unfold ntyreactorAddlistener at h
  by_cases hlt : sockFd < maxEpollEvents
  · simp only [event_of_lt _ hlt, setEvent_of_lt _ hlt, Option.bind_eq_bind, Option.bind_some,
      Option.some.injEq] at h
    subst h
    refine ⟨hlt, rfl, ?_, fun k hk => ?_⟩
    · simp only [Function.update_self]
      exact ⟨rfl, rfl, rfl⟩
    · simp only [Function.update_of_ne hk]
      exact ⟨rfl, rfl⟩
  · rw [event_of_ge _ hlt] at h
    cases h

theorem indexed_addlistener {junk : ℕ → NtyEvent} {opened : Finset ℕ} {sockFd : ℕ}
    {callback : Callback}
    (h : (NtyReactor.init junk opened).ntyreactorAddlistener sockFd callback = some r) :
    Indexed r := by
  obtain ⟨hlt, -, ⟨hfd, -, -⟩, hothers⟩ := addlistener_cases h
  intro k hk
  by_cases heq : k = sockFd
  · subst heq
    exact ⟨hfd, hlt⟩
  · exact absurd (hothers k heq).1 hk

theorem addlistener_isSome_iff (junk : ℕ → NtyEvent) (opened : Finset ℕ) (sockFd : ℕ)
    (callback : Callback) :
    ((NtyReactor.init junk opened).ntyreactorAddlistener sockFd callback).isSome ↔
      sockFd < maxEpollEvents := by
  unfold ntyreactorAddlistener
  by_cases hlt : sockFd < maxEpollEvents
  · simp [event_of_lt _ hlt, setEvent_of_lt _ hlt, hlt]
  · simp [event_of_ge _ hlt, hlt]

/-! ## The search for a free slot -/

/-- The descriptor is open, and its slot was never set. -/
structure Reserved (r : NtyReactor) (fd : ℕ) : Prop where
  opened : fd ∈ r.opened
  unset : (r.events fd).callback = none
  free : (r.events fd).status = 0

theorem Reserved.moves (h : Reserved r fd) (hmoves : Moves r r') : Reserved r' fd := by
  have hsame : r'.events fd = r.events fd := by
    by_contra hne
    obtain ⟨-, -, hclosed | hset⟩ := hmoves.slot fd hne
    · exact hclosed h.opened
    · exact hset h.unset
  refine ⟨?_, hsame ▸ h.unset, hsame ▸ h.free⟩
  obtain hopened | hset := hmoves.opened fd h.opened
  · exact hopened
  · exact absurd h.unset hset

/-- A descriptor that is open from the start and is not the listener's keeps its slot free, so the
search of `accept_callback` never comes to the end of the array. -/
theorem exists_free_slot {junk : ℕ → NtyEvent} {opened : Finset ℕ} {sockFd epollFd : ℕ}
    (hopened : epollFd ∈ opened) (hne : epollFd ≠ sockFd) (hlt : epollFd < maxEpollEvents)
    {es : List Ready} (hrun : run junk opened sockFd es = some r) :
    ∃ i < maxEpollEvents, (r.events i).status = 0 := by
  obtain ⟨r₀, hstart, hrun⟩ := Option.bind_eq_some_iff.mp hrun
  obtain ⟨-, hsame, -, hothers⟩ := addlistener_cases hstart
  have h₀ : Indexed r₀ ∧ Reserved r₀ epollFd :=
    ⟨indexed_addlistener hstart, hsame ▸ hopened, (hothers epollFd hne).1, (hothers epollFd hne).2⟩
  have hstep : ∀ s e s', Indexed s ∧ Reserved s epollFd → True → step s e = some s' →
      Indexed s' ∧ Reserved s' epollFd := by
    rintro s e s' ⟨hs, hreserved⟩ - hs'
    have hmoves := (step_does hs e).moves s' hs'
    exact ⟨hs.moves hmoves, hreserved.moves hmoves⟩
  have h := PartialMachine.run_invariant hstep h₀ (PartialMachine.meets_true r₀ es) hrun
  exact ⟨epollFd, hlt, h.2.free⟩

/-- **When the reactor keeps to its arrays.** For every set of descriptors that are open at the
start and every sequence of notifications, whatever the system calls answer: no callback indexes the
array of slots or the buffer of a slot out of range if and only if the listener's descriptor is
below the size of the array, so is, whenever a connection is accepted into a table with a free slot,
some descriptor that is not open, and no `recv` fills the buffer. -/
theorem run_inBounds_iff (junk : ℕ → NtyEvent) (opened : Finset ℕ) (sockFd : ℕ)
    (es : List Ready) :
    (run junk opened sockFd es).isSome ↔ sockFd < maxEpollEvents ∧
      ∀ r, (NtyReactor.init junk opened).ntyreactorAddlistener sockFd .acceptCallback = some r →
        PartialMachine.Meets step Fits r es := by
  rw [← addlistener_isSome_iff junk opened sockFd .acceptCallback, run]
  cases hstart : (NtyReactor.init junk opened).ntyreactorAddlistener sockFd .acceptCallback with
  | none => simp
  | some r => simpa using isSome_foldlM_step_iff (indexed_addlistener hstart) es

/-! ## Two runs that leave the arrays -/

/-- The listener, on descriptor 3, has a connection. -/
def connecting : Ready := ⟨3, .epollin, some 0, none, 0⟩

/-- The descriptors below `m` are open, 3 is the listener's, and 4 keeps its slot free. -/
structure Accepting (r : NtyReactor) (m : ℕ) : Prop where
  indexed : Indexed r
  opened : r.opened = Finset.range m
  events : (r.events 3).events = .epollin
  callback : (r.events 3).callback = some .acceptCallback
  free : (r.events 4).status = 0
  le : 5 ≤ m

variable {m : ℕ}

/-- A connection gets the next descriptor. -/
theorem Accepting.connect (h : Accepting r m) (hm : m < maxEpollEvents) :
    ∃ r', step r connecting = some r' ∧ Accepting r' (m + 1) ∧ (r'.events m).events = .epollin ∧
      (r'.events m).callback = some .recvCallback := by
  obtain ⟨hfd, hlt⟩ := h.indexed 3 (by simp [h.callback])
  have hleast : leastUnused r.opened = m := by rw [h.opened, leastUnused_range]
  have hstep : step r connecting = r.acceptCallback 3 (some 0) := by
    simp only [step, connecting, h.events, if_true, h.callback, hfd]
  have hne : 3 ≠ m ∧ 4 ≠ m := by
    have := h.le
    omega
  have hsome := hstep.trans (acceptCallback_some hlt 0)
  rw [if_pos ⟨⟨4, by decide, h.free⟩, le_rfl⟩, hleast, if_pos hm] at hsome
  refine ⟨_, hsome, ⟨h.indexed.moves ((step_does h.indexed _).moves _ hsome), ?_, ?_, ?_, ?_, ?_⟩,
    ?_, ?_⟩
  · simp only [h.opened, Finset.range_add_one]
  · simpa [hne.1] using h.events
  · simpa [hne.1] using h.callback
  · simpa [hne.2] using h.free
  · exact h.le.trans (Nat.le_succ m)
  · simp only [Function.update_self]
    rfl
  · simp only [Function.update_self]
    rfl

/-- The array has no slot for the next descriptor. -/
theorem Accepting.connect_full (h : Accepting r m) (hm : maxEpollEvents ≤ m) :
    step r connecting = none := by
  have hfits : ¬ Fits r connecting := by
    intro hfits
    simp only [Fits, connecting, h.events, h.callback, true_imp_iff] at hfits
    obtain ⟨d, hd, hunused⟩ := hfits ⟨4, by decide, h.free⟩ ⟨0, le_rfl, rfl⟩
    rw [h.opened, Finset.mem_range] at hunused
    omega
  rw [← Option.not_isSome_iff_eq_none, (step_does h.indexed _).isSome_iff]
  exact hfits

theorem Accepting.connects (h : Accepting r m) {n : ℕ} (hn : maxEpollEvents < m + n)
    (hm : m ≤ maxEpollEvents) : (List.replicate n connecting).foldlM step r = none := by
  induction n generalizing r m with
  | zero => omega
  | succ n ih =>
    rw [List.replicate_succ, List.foldlM_cons]
    by_cases hlt : m < maxEpollEvents
    · obtain ⟨r', hr', hnext, -⟩ := h.connect hlt
      rw [hr']
      exact ih hnext (by omega) hlt
    · rw [h.connect_full (not_lt.mp hlt)]
      rfl

/-- A reactor of a process with the three standard descriptors, the listener and the epoll
instance. -/
theorem accepting_addlistener (junk : ℕ → NtyEvent) :
    ∃ r, (NtyReactor.init junk (Finset.range 5)).ntyreactorAddlistener 3 .acceptCallback = some r ∧
      Accepting r 5 := by
  obtain ⟨r, hr⟩ := Option.isSome_iff_exists.mp
    ((addlistener_isSome_iff junk (Finset.range 5) 3 .acceptCallback).mpr (by decide))
  obtain ⟨-, hopened, ⟨-, hevents, hcallback⟩, hothers⟩ := addlistener_cases hr
  exact ⟨r, hr, indexed_addlistener hr, hopened, hevents, hcallback, (hothers 4 (by decide)).2,
    le_rfl⟩

/-- A slot of zeros. -/
def zeroed : NtyEvent := ⟨0, .epollin, none, 0, fun _ => 0, 0⟩

/-- The 1020th connection has the descriptor 1024, and a first message of 4096 bytes fills the
buffer. -/
theorem not_inBounds :
    ¬ (run (fun _ => zeroed) (Finset.range 5) 3 (List.replicate 1020 connecting)).isSome ∧
      ¬ (run (fun _ => zeroed) (Finset.range 5) 3
        [connecting, ⟨5, .epollin, none, some (List.replicate 4096 0x61), 0⟩]).isSome := by
  obtain ⟨r, hr, haccepting⟩ := accepting_addlistener fun _ => zeroed
  obtain ⟨r₁, hr₁, hnext, hevents, hcallback⟩ := haccepting.connect (by decide)
  have hfits : ¬ Fits r₁ ⟨5, .epollin, none, some (List.replicate 4096 0x61), 0⟩ := by
    intro hfits
    simp only [Fits, hevents, hcallback, true_imp_iff] at hfits
    have hlt := hfits _ rfl
    rw [List.length_replicate] at hlt
    exact absurd hlt (by decide)
  rw [run, run, hr]
  constructor
  · rw [Option.bind_eq_bind, Option.bind_some, haccepting.connects (by decide) (by decide)]
    simp
  · intro hrun
    simp only [Option.bind_eq_bind, Option.bind_some, List.foldlM_cons, hr₁] at hrun
    obtain ⟨r₂, hrun⟩ := Option.isSome_iff_exists.mp hrun
    obtain ⟨r₃, hstep, -⟩ := Option.bind_eq_some_iff.mp hrun
    exact hfits ((step_does hnext.indexed _).isSome_iff.mp (by rw [hstep]; rfl))

end CodeTest.Nty
