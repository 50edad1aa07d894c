import CodeTest.Reactor.Listed

/-!
# Events that cannot be registered

`revent_add` links a node in before it asks the kernel, and after a failure of `epoll_ctl` it takes
the node out of the array again. It does not take it out of the list: the node that was the head
still has its pointer back to it. The call leaves no trace exactly if there was no such node.
-/

namespace CodeTest.Reactor

variable {r r' : Reactor} {lists : ℕ → List Addr} {refuses : EpollOp → Bool} {p : Addr}
  {ev : Revent}

/-! ## A kernel that refuses -/

/-- Why `epoll_ctl` fails: because of the registrations, or for a reason that they do not tell, such
as that there is no memory for another one. -/
inductive EpollError
  | errno (e : Errno)
  | refused

/-- `epoll_ctl` of a kernel that refuses some operations for reasons of its own. -/
def epollCtlOr (refuses : EpollOp → Bool) (epoll : Table ℕ EpollEvent) (op : EpollOp) (fd : ℕ)
    (ev : EpollEvent) : Except EpollError (Table ℕ EpollEvent) :=
  if refuses op then .error .refused else (epollCtl epoll op fd ev).mapError .errno

/-- The second part of `revent_add`: the node that is now the head is registered. -/
def register (refuses : EpollOp → Bool) (r : Reactor) (p : Addr) (ev : Revent) :
    Option (Bool × Reactor) :=
  match epollCtlOr refuses r.epoll .add ev.fd ⟨ev.events, p⟩ with
  | .ok epoll => some (true, { r with epoll })
  | .error (.errno .exist) => do
    let mask ← orEvents r.mem r.mem.keys.length (some p) 0
    match epollCtlOr refuses r.epoll .mod ev.fd ⟨mask, p⟩ with
    | .ok epoll => return (true, { r with epoll })
    | .error _ => return (false, ← r.popEvent p ev.fd)
  | .error _ => do return (false, ← r.popEvent p ev.fd)

/-- `revent_add` with such a kernel, and whether it returned 0. -/
def reventAddOr (refuses : EpollOp → Bool) (r : Reactor) (p : Addr) :
    Option (Bool × Reactor) := do
  let ev ← r.mem.lookup p
  if ev.status ≠ 0 then return (false, r)
  if maxEpollEvents ≤ ev.fd then none
  (← r.pushEvent p ev.fd).register refuses p ev

/-- A kernel that refuses nothing. -/
theorem reventAddOr_eq (r : Reactor) (p : Addr) :
    r.reventAddOr (fun _ => false) p = r.reventAdd p := by
  have hctl : ∀ epoll op fd ev, epollCtlOr (fun _ => false) epoll op fd ev =
      (epollCtl epoll op fd ev).mapError .errno := fun _ _ _ _ => rfl
  unfold reventAddOr reventAdd
  cases r.mem.lookup p with
  | none => rfl
  | some ev =>
    cases hpush : r.pushEvent p ev.fd with
    | none => simp [hpush]
    | some r₁ =>
      simp only [Option.bind_eq_bind, Option.bind_some, hpush, register, hctl]
      cases epollCtl r₁.epoll .add ev.fd ⟨ev.events, p⟩ with
      | ok epoll => rfl
      | error e =>
        cases e with
        | noent => rfl
        | exist =>
          cases orEvents r₁.mem r₁.mem.keys.length (some p) 0 with
          | none => rfl
          | some mask =>
            simp only [Except.mapError, Option.bind_some]
            cases epollCtl r₁.epoll .mod ev.fd ⟨mask, p⟩ <;> rfl

theorem register_failed (hret : r.register refuses p ev = some (false, r')) :
    r.popEvent p ev.fd = some r' := by
  have hpop : ∀ pop : Option Reactor,
      (do return (false, ← pop) : Option (Bool × Reactor)) = some (false, r') →
        pop = some r' := by
    rintro (_ | r₁) hpop
    · cases hpop
    · cases hpop
      rfl
  unfold register at hret
  split at hret
  · cases hret
  · obtain ⟨mask, -, hret⟩ := Option.bind_eq_some_iff.mp hret
    split at hret
    · cases hret
    · exact hpop _ hret
  · exact hpop _ hret

/-! ## What a failed call leaves -/

/-- A node as `revent_set` leaves it. -/
structure Fresh (ev : Revent) : Prop where
  status : ev.status = 0
  next : ev.next = none
  prev : ev.prev = none

theorem Fresh.eq (h : Fresh ev) : { ev with next := none, prev := none } = ev := by
  obtain ⟨-, hnext, hprev⟩ := h
  cases ev
  simp only at hnext hprev
  rw [hnext, hprev]

/-- A node that is put at the head of its list and taken out of the array again. -/
theorem popEvent_eq (hev : r.mem.lookup p = some ev) (hfresh : Fresh ev)
    (hhead : ∀ q, r.events ev.fd = some q → q ≠ p ∧ (r.mem.lookup q).isSome) {r₁ : Reactor}
    (hpush : r.pushEvent p ev.fd = some r₁) :
    ∃ mem', r₁.popEvent p ev.fd = some { r with mem := mem' } ∧
      ∀ q, mem'.lookup q = r.pushed p ev ev.fd q := by
  obtain ⟨mem₁, hpush₁, hmem₁⟩ := pushEvent_eq hev hfresh.next hfresh.prev hhead
  obtain rfl := Option.some_inj.mp (hpush.symm.trans hpush₁)
  have hp : mem₁.lookup p =
      some { ev with status := 1, next := r.events ev.fd, prev := none } := by
    rw [hmem₁, pushed_self]
  refine ⟨mem₁.insert p { ev with status := 0, next := r.events ev.fd, prev := none }, ?_, ?_⟩
  · simp [popEvent, hp, Memory.write_eq hp]
  · intro q
    rw [Table.lookup_insert_eq, hmem₁]
    split_ifs with hq
    · rw [hq, pushed_self, ← hfresh.status]
    · rw [pushed_of_ne r _ ev.fd hq, pushed_of_ne r ev ev.fd hq]

theorem Consistent.not_mem_of_fresh (h : r.Consistent lists) (hev : r.mem.lookup p = some ev)
    (hfresh : Fresh ev) (fd : ℕ) : p ∉ lists fd := by
  intro hp
  obtain ⟨e, he, rfl, -⟩ := h.node fd p hp
  cases hev.symm.trans he
  have hstatus := (h.status p ev hev).mpr hp
  rw [hfresh.status] at hstatus
  exact Nat.zero_ne_one hstatus

/-- What a failed call does to the reactor. -/
theorem of_reventAddOr (h : r.Consistent lists) (hev : r.mem.lookup p = some ev)
    (hfresh : Fresh ev) (hret : r.reventAddOr refuses p = some (false, r')) :
    ∃ mem', r' = { r with mem := mem' } ∧ ev.fd < maxEpollEvents ∧
      ∀ q, mem'.lookup q = r.pushed p ev ev.fd q := by
  have hhead := h.head_ne (h.not_mem_of_fresh hev hfresh) ev.fd
  have hfd : ev.fd < maxEpollEvents := by
    apply not_le.mp
    intro hfd
    simp [reventAddOr, hev, hfresh.status, hfd] at hret
  obtain ⟨r₁, hpush, hret⟩ : ∃ r₁, r.pushEvent p ev.fd = some r₁ ∧
      r₁.register refuses p ev = some (false, r') := by
    apply Option.bind_eq_some_iff.mp
    simpa [reventAddOr, hev, hfresh.status, not_le.mpr hfd] using hret
  obtain ⟨mem', hpop, hmem⟩ := popEvent_eq hev hfresh hhead hpush
  have hpop' := register_failed hret
  exact ⟨mem', Option.some_inj.mp (hpop'.symm.trans hpop), hfd, hmem⟩

/-- The call returns, and it fails if the kernel refuses to add the registration, or to change the
one that the other nodes of the descriptor have. -/
theorem Consistent.exists_reventAddOr (h : r.Consistent lists) (hev : r.mem.lookup p = some ev)
    (hfresh : Fresh ev) (hfd : ev.fd < maxEpollEvents)
    (hevents : ev.events = epollIn ∨ ev.events = epollOut) (refuses : EpollOp → Bool) :
    ∃ b r', r.reventAddOr refuses p = some (b, r') ∧
      (b = false ↔ refuses .add = true ∨ lists ev.fd ≠ [] ∧ refuses .mod = true) := by
  have hp := h.not_mem_of_fresh hev hfresh
  have hhead := h.head_ne hp ev.fd
  obtain ⟨mem₁, hpush, hmem₁⟩ := pushEvent_eq hev hfresh.next hfresh.prev hhead
  obtain ⟨mem', hpop, -⟩ := popEvent_eq hev hfresh hhead hpush
  have hmask := (h.push hp hmem₁ rfl hfd hevents rfl fun fd' =>
    Table.lookup_insert_eq r.epoll ev.fd fd' _).orEvents_eq ev.fd
  have hreg := h.registered ev.fd
  simp only [Function.update_self] at hmask
  set events := Function.update r.events ev.fd (some p)
  have hcall : r.reventAddOr refuses p = register refuses ⟨mem₁, events, r.epoll⟩ p ev := by
    simp [reventAddOr, hev, hfresh.status, not_le.mpr hfd, hpush]
  rw [hcall]
  simp only [register, epollCtlOr]
  cases hadd : refuses .add with
  | true => exact ⟨false, { r with mem := mem' }, by simp [hpop], by simp⟩
  | false =>
    cases hl : lists ev.fd with
    | nil =>
      rw [hl] at hreg
      refine ⟨true, ⟨mem₁, events, r.epoll.insert ev.fd ⟨ev.events, p⟩⟩, ?_, by simp⟩
      simp [epollCtl, hreg, registration, Except.mapError]
    | cons q l =>
      rw [hl] at hreg hmask
      cases hmod : refuses .mod with
      | true =>
        refine ⟨false, { r with mem := mem' }, ?_, by simp⟩
        simp [epollCtl, hreg, registration, Except.mapError, hmask, hpop]
      | false =>
        refine ⟨true, ⟨mem₁, events, r.epoll.insert ev.fd ⟨maskOf mem₁ (p :: q :: l), p⟩⟩, ?_,
          by simp⟩
        simp [epollCtl, hreg, registration, Except.mapError, hmask]

/-- The node that could not be added is freed. -/
def freed (r : Reactor) (p : Addr) : Reactor := { r with mem := r.mem.erase p }

/-- A call that was given `r` and left `r'` has undone what it did with the node `p`. The array, the
nodes of the lists and the registrations are as before, and after the node is freed no operation
needs it: whatever is allowed runs to its end. -/
structure Undone (r r' : Reactor) (p : Addr) : Prop where
  events : r'.events = r.events
  node : ∀ q, r.Listed q → r'.mem.lookup q = r.mem.lookup q
  epoll : r'.epoll = r.epoll
  later : ∀ ops, PartialMachine.Meets step Allowed (r'.freed p) ops →
    ∃ r'', ops.foldlM step (r'.freed p) = some r''

/-- Where the list of the descriptor was empty, the freed node was the only one that was written. -/
theorem undone_of_none (h : r.Consistent lists) (hev : r.mem.lookup p = some ev)
    (hfresh : Fresh ev) (hret : r.reventAddOr refuses p = some (false, r'))
    (hempty : r.events ev.fd = none) : Undone r r' p := by
  obtain ⟨mem', rfl, -, hmem⟩ := of_reventAddOr h hev hfresh hret
  have hsame : ∀ q, mem'.lookup q = r.mem.lookup q := by
    intro q
    rw [hmem, pushed, hempty]
    split_ifs with hq h
    · rw [hq, hev, hfresh.eq]
    · cases h
    · rfl
  have hp : ∀ fd, p ∉ lists fd := h.not_mem_of_fresh hev hfresh
  have hfreed : (freed { r with mem := mem' } p).Consistent lists := by
    refine h.of_unlisted ?_ ?_
    · intro fd q hq
      rw [Table.lookup_erase_eq, if_neg, hsame]
      rintro rfl
      exact hp fd hq
    · intro q e hq
      rw [Table.lookup_erase_eq] at hq
      split_ifs at hq
      exact .inl ((hsame q).symm.trans hq)
  constructor
  · rfl
  · intro q _
    exact hsame q
  · rfl
  · intro ops hops
    obtain ⟨r'', hr'', -⟩ := hfreed.exists_run hops
    exact ⟨r'', hr''⟩

/-- Otherwise the node that is the head again has a pointer to the one that was not added. -/
theorem head_failed (h : r.Consistent lists) (hev : r.mem.lookup p = some ev)
    (hfresh : Fresh ev) (hret : r.reventAddOr refuses p = some (false, r')) {q : Addr}
    (hq : r.events ev.fd = some q) :
    ∃ e, r.mem.lookup q = some e ∧ e.prev = none ∧ e.status = 1 ∧ e.fd = ev.fd ∧ q ≠ p ∧
      r'.mem.lookup q = some { e with prev := some p } := by
  obtain ⟨mem', rfl, -, hmem⟩ := of_reventAddOr h hev hfresh hret
  have hmem_q := h.head_mem hq
  obtain ⟨e, he, hfd, -⟩ := h.node _ q hmem_q
  have hqp := (h.head_ne (h.not_mem_of_fresh hev hfresh) ev.fd q hq).1
  refine ⟨e, he, ?_, ?_, hfd, hqp, ?_⟩
  · have hprev := h.bookkeeping.head _ q hq
    rwa [prevOf, he] at hprev
  · rw [h.status q e he, hfd]
    exact hmem_q
  · rw [hmem, pushed_of_ne r ev ev.fd hqp, he, Option.map_some, if_pos hq]

/-- To delete that node is to write to the other one, which may have been freed. -/
theorem reventDel_freed (h : r.Consistent lists) (hev : r.mem.lookup p = some ev)
    (hfresh : Fresh ev) (hret : r.reventAddOr refuses p = some (false, r')) {q : Addr}
    (hq : r.events ev.fd = some q) : (r'.freed p).reventDel q = none := by
  obtain ⟨-, -, hlt, -⟩ := of_reventAddOr h hev hfresh hret
  obtain ⟨e, -, -, hstatus, hfd, hqp, he'⟩ := head_failed h hev hfresh hret hq
  have hlookup : (r'.freed p).mem.lookup q = some { e with prev := some p } := by
    rw [freed, Table.lookup_erase_eq, if_neg hqp, he']
  have hgone : (r'.freed p).mem.lookup p = none := by
    rw [freed, Table.lookup_erase_eq, if_pos rfl]
  simp [reventDel, hlookup, hstatus, hfd, not_le.mpr hlt, unlinkEvent, Memory.writeThrough,
    Memory.write, hgone]

/-- **When a failed `revent_add` changes nothing**: the array, the listed nodes and the
registrations are as before, and the node may be freed, exactly if the list of its descriptor was
empty. If it was not, then after the node is freed the head of that list cannot be deleted. -/
theorem reventAdd_failed_iff (h : r.Consistent lists) (hev : r.mem.lookup p = some ev)
    (hfresh : Fresh ev) (hret : r.reventAddOr refuses p = some (false, r')) :
    (Undone r r' p ↔ r.events ev.fd = none) ∧
      ∀ q, r.events ev.fd = some q → r.Listed q ∧ (r'.freed p).reventDel q = none := by
  have hlisted : ∀ q, r.events ev.fd = some q → r.Listed q :=
    fun q hq => h.listed_iff.mpr ⟨_, h.head_mem hq⟩
  constructor
  · constructor
    · intro hundone
      cases hq : r.events ev.fd with
      | none => rfl
      | some q =>
        obtain ⟨e, he, hprev, -, -, -, he'⟩ := head_failed h hev hfresh hret hq
        rw [hundone.node q (hlisted q hq), he] at he'
        cases hprev.symm.trans (congrArg Revent.prev (Option.some_inj.mp he'))
    · exact undone_of_none h hev hfresh hret
  · intro q hq
    exact ⟨hlisted q hq, reventDel_freed h hev hfresh hret hq⟩

/-! ## A descriptor that is waited for -/

/-- A node for reading and one for writing. -/
def readable : Revent := ⟨5, epollIn, .recvCallback, 0, [], 0, none, none⟩

def writable : Revent := ⟨5, epollOut, .sendCallback, 0, [], 3, none, none⟩

/-- The descriptor 5 is waited for in order to read, and the node for writing is set. -/
def waiting : Reactor where
  mem := (init.mem.insert 2 writable).insert 1 { readable with status := 1 }
  events := Function.update init.events 5 (some 1)
  epoll := init.epoll.insert 5 ⟨epollIn, 1⟩

def refusesMod : EpollOp → Bool
  | .mod => true
  | _ => false

theorem waiting_consistent : waiting.Consistent (Function.update (fun _ => []) 5 [1]) := by
  have hset : Consistent { init with mem := init.mem.insert 2 writable } fun _ => [] :=
    consistent_init.set (fun _ => List.not_mem_nil) Nat.zero_ne_one
  have hmem : ∀ q, waiting.mem.lookup q = pushed { init with mem := init.mem.insert 2 writable } 1
      { readable with status := 1 } 5 q := by
    intro q
    exact Table.lookup_insert_eq _ _ _ _
  refine hset.push (fun _ => List.not_mem_nil) hmem rfl (by decide) (.inl rfl) rfl ?_
  intro fd
  exact Table.lookup_insert_eq _ _ _ _

/-- The registration of the second node fails. -/
theorem waiting_fails : ∃ r', waiting.reventAddOr refusesMod 2 = some (false, r') := by
  have hfst : (waiting.reventAddOr refusesMod 2).map Prod.fst = some false := by decide +kernel
  obtain ⟨⟨b, r'⟩, hr', rfl⟩ := Option.map_eq_some_iff.mp hfst
  exact ⟨r', hr'⟩

theorem writable_fresh : Fresh writable := ⟨rfl, rfl, rfl⟩

/-- The echo of received data is not registered, and freed: the node that waits for data cannot be
deleted any more. -/
theorem reventAdd_failed_waiting :
    ∃ r', waiting.reventAddOr refusesMod 2 = some (false, r') ∧
      (Undone waiting r' 2 ↔ waiting.events 5 = none) ∧
      ∀ q, waiting.events 5 = some q → waiting.Listed q ∧ (r'.freed 2).reventDel q = none := by
  obtain ⟨r', hr'⟩ := waiting_fails
  exact ⟨r', hr', reventAdd_failed_iff waiting_consistent rfl writable_fresh hr'⟩

/-- A failed call can leave its trace. -/
theorem reventAdd_not_undone :
    ¬ ∀ (r r' : Reactor) (lists : ℕ → List Addr) (refuses : EpollOp → Bool) (p : Addr)
        (ev : Revent), r.Consistent lists → r.mem.lookup p = some ev → Fresh ev →
      r.reventAddOr refuses p = some (false, r') → Undone r r' p := by
  intro hall
  obtain ⟨r', hr'⟩ := waiting_fails
  have hundone := hall _ _ _ _ _ _ waiting_consistent rfl writable_fresh hr'
  have hnode := hundone.node 1 (waiting_consistent.listed_iff.mpr ⟨5, List.mem_singleton_self 1⟩)
  obtain ⟨e, he, hprev, -, -, -, he'⟩ :=
    head_failed waiting_consistent rfl writable_fresh hr' (q := 1) rfl
  rw [hnode, he] at he'
  cases hprev.symm.trans (congrArg Revent.prev (Option.some_inj.mp he'))

end CodeTest.Reactor
