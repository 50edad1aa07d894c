import CodeTest.Foundations.Linked
import CodeTest.Reactor.Revent

/-!
# The lists of a reactor and the registrations of the kernel

`Consistent r lists` says that the list of the descriptor `fd` is the doubly linked list with the
nodes `lists fd`, that the status of a node says whether it is in its list, and that the kernel has
the registration that belongs to the lists: the masks of the nodes together, with a pointer to the
head. An operation changes one of the lists, and nothing else.
-/

namespace CodeTest.Reactor

/-- The pointers between nodes. -/
def nextOf (mem : Memory Revent) (p : Addr) : Option Addr := (mem.lookup p).bind Revent.next

def prevOf (mem : Memory Revent) (p : Addr) : Option Addr := (mem.lookup p).bind Revent.prev

/-- The mask of a node. -/
def eventsOf (mem : Memory Revent) (p : Addr) : ℕ := ((mem.lookup p).map Revent.events).getD 0

/-- The masks of the nodes of a list together. -/
def maskOf (mem : Memory Revent) (l : List Addr) : ℕ := (l.map (eventsOf mem)).foldl (· ||| ·) 0

/-- The registration that belongs to a list. -/
def registration (mem : Memory Revent) (l : List Addr) : Option EpollEvent :=
  l.head?.map fun p => ⟨maskOf mem l, p⟩

/-- What the operations on the lists leave as it is in a node. -/
def data (e : Revent) : ℕ × ℕ × Callback × List UInt8 × ℕ :=
  (e.fd, e.events, e.callback, e.buffer, e.length)

/-- The nodes of two memories differ only in their pointers and their status. -/
def SameData (mem mem' : Memory Revent) : Prop :=
  ∀ q, (mem'.lookup q).map data = (mem.lookup q).map data

/-- The lists of a reactor with the nodes `lists`, and the registrations. -/
structure Consistent (r : Reactor) (lists : ℕ → List Addr) : Prop where
  linked : ∀ fd, Linked (nextOf r.mem) (prevOf r.mem) none (r.events fd) (lists fd)
  nodup : ∀ fd, (lists fd).Nodup
  node : ∀ fd, ∀ p ∈ lists fd, ∃ e, r.mem.lookup p = some e ∧ e.fd = fd ∧ fd < maxEpollEvents ∧
    (e.events = epollIn ∨ e.events = epollOut)
  status : ∀ p e, r.mem.lookup p = some e → (e.status = 1 ↔ p ∈ lists e.fd)
  registered : ∀ fd, r.epoll.lookup fd = registration r.mem (lists fd)

variable {r r' : Reactor} {lists : ℕ → List Addr} {mem mem' : Memory Revent} {p : Addr}

theorem consistent_init : init.Consistent fun _ => [] where
  linked fd := rfl
  nodup fd := List.nodup_nil
  node fd p hp := absurd hp List.not_mem_nil
  status p e h := by
    rw [show init.mem = ∅ from rfl, AList.lookup_empty] at h
    cases h
  registered fd := AList.lookup_empty fd

/-! ## Collecting the masks -/

theorem maskOf_congr {l : List Addr} (h : ∀ p ∈ l, eventsOf mem' p = eventsOf mem p) :
    maskOf mem' l = maskOf mem l := by
  rw [maskOf, maskOf, List.map_congr_left h]

/-- The loop over a linked list collects the masks of its nodes. -/
theorem orEvents_eq {b p : Option Addr} {l : List Addr} {fuel : ℕ}
    (h : Linked (nextOf mem) (prevOf mem) b p l) (halloc : ∀ q ∈ l, (mem.lookup q).isSome)
    (hfuel : l.length ≤ fuel) (mask : ℕ) :
    orEvents mem fuel p mask = some ((l.map (eventsOf mem)).foldl (· ||| ·) mask) := by
  induction l generalizing b p fuel mask with
  | nil =>
    obtain rfl : p = none := h
    cases fuel <;> rfl
  | cons q l ih =>
    obtain ⟨rfl, -, h⟩ := h
    obtain ⟨e, he⟩ := Option.isSome_iff_exists.mp (halloc q List.mem_cons_self)
    cases fuel with
    | zero => exact absurd hfuel (Nat.not_succ_le_zero _)
    | succ fuel =>
      have hnext : nextOf mem q = e.next := by simp [nextOf, he]
      have hevents : eventsOf mem q = e.events := by simp [eventsOf, he]
      rw [hnext] at h
      rw [orEvents, he, List.map_cons, List.foldl_cons, hevents]
      exact ih h (fun q hq => halloc q (List.mem_cons_of_mem _ hq)) (Nat.le_of_succ_le_succ hfuel) _

theorem foldl_or_ne_zero (masks : List ℕ) {m : ℕ} (hm : m ≠ 0) :
    masks.foldl (· ||| ·) m ≠ 0 := by
  induction masks generalizing m with
  | nil => exact hm
  | cons k masks ih =>
    apply ih
    intro h
    exact hm (Nat.or_eq_zero_iff.mp h).1

/-- A list without repetitions of allocated nodes is not longer than the memory. -/
theorem length_le_keys {l : List Addr} (hnd : l.Nodup) (halloc : ∀ q ∈ l, (mem.lookup q).isSome) :
    l.length ≤ mem.keys.length := by
  apply List.Subperm.length_le
  apply List.subperm_of_subset hnd
  intro q hq
  exact AList.mem_keys.mpr (AList.lookup_isSome.mp (halloc q hq))

namespace Consistent

theorem isSome (h : r.Consistent lists) {fd : ℕ} (hp : p ∈ lists fd) : (r.mem.lookup p).isSome := by
  obtain ⟨e, he, -⟩ := h.node fd p hp
  rw [he]
  rfl

/-- A node is in one list. -/
theorem fd_unique (h : r.Consistent lists) {fd fd' : ℕ} (hp : p ∈ lists fd) (hp' : p ∈ lists fd') :
    fd = fd' := by
  obtain ⟨e, he, hfd, -⟩ := h.node fd p hp
  obtain ⟨e', he', hfd', -⟩ := h.node fd' p hp'
  cases he.symm.trans he'
  exact hfd.symm.trans hfd'

theorem head_mem (h : r.Consistent lists) {fd : ℕ} (hp : r.events fd = some p) : p ∈ lists fd :=
  List.mem_of_head? ((h.linked fd).eq_head?.symm.trans hp)

/-- The head of a list is another node than one that is in no list. -/
theorem head_ne (h : r.Consistent lists) (hp : ∀ fd, p ∉ lists fd) (fd : ℕ) :
    ∀ q, r.events fd = some q → q ≠ p ∧ (r.mem.lookup q).isSome := by
  intro q hq
  refine ⟨?_, h.isSome (h.head_mem hq)⟩
  rintro rfl
  exact hp fd (h.head_mem hq)

/-- The loops over the list of a descriptor collect the mask of its registration. -/
theorem orEvents_eq (h : r.Consistent lists) (fd : ℕ) :
    orEvents r.mem r.mem.keys.length (r.events fd) 0 = some (maskOf r.mem (lists fd)) :=
  Reactor.orEvents_eq (h.linked fd) (fun _ hq => h.isSome hq)
    (length_le_keys (h.nodup fd) fun _ hq => h.isSome hq) 0

/-! ## Adding a node -/

/-- The nodes that are in no list can change, as long as their status does not say that they are. -/
theorem of_unlisted (h : r.Consistent lists)
    (hlisted : ∀ fd, ∀ q ∈ lists fd, mem'.lookup q = r.mem.lookup q)
    (hother : ∀ q e, mem'.lookup q = some e →
      r.mem.lookup q = some e ∨ (e.status ≠ 1 ∧ ∀ fd, q ∉ lists fd)) :
    ({ r with mem := mem' } : Reactor).Consistent lists := by
  constructor
  · intro fd
    refine (h.linked fd).congr (fun q hq => ?_) fun q hq => ?_
    · simp only [nextOf, hlisted fd q hq]
    · simp only [prevOf, hlisted fd q hq]
  · exact h.nodup
  · intro fd q hq
    rw [hlisted fd q hq]
    exact h.node fd q hq
  · intro q e hq
    rcases hother q e hq with hq | ⟨hstatus, hnot⟩
    · exact h.status q e hq
    · exact iff_of_false hstatus (hnot _)
  · intro fd
    rw [h.registered fd, registration, registration, maskOf_congr]
    intro q hq
    rw [eventsOf, eventsOf, hlisted fd q hq]

/-- A node that is in no list is set. -/
theorem set (h : r.Consistent lists) (hp : ∀ fd, p ∉ lists fd) {ev : Revent}
    (hev : ev.status ≠ 1) :
    ({ r with mem := r.mem.insert p ev } : Reactor).Consistent lists := by
  refine h.of_unlisted ?_ ?_
  · intro fd q hq
    rw [Table.lookup_insert_eq, if_neg]
    rintro rfl
    exact hp fd hq
  · intro q e hq
    rw [Table.lookup_insert_eq] at hq
    split_ifs at hq with hqp
    · cases hq
      subst hqp
      exact .inr ⟨hev, hp⟩
    · exact .inl hq

/-- A node that is in no list is freed. -/
theorem free (h : r.Consistent lists) (hp : ∀ fd, p ∉ lists fd) :
    ({ r with mem := r.mem.erase p } : Reactor).Consistent lists := by
  refine h.of_unlisted ?_ ?_
  · intro fd q hq
    rw [Table.lookup_erase_eq, if_neg]
    rintro rfl
    exact hp fd hq
  · intro q e hq
    rw [Table.lookup_erase_eq] at hq
    split_ifs at hq
    exact .inl hq

end Consistent

/-- The cell `q` when `p`, which is filled with `ev`, is put before the head of the list of `fd`. -/
def pushed (r : Reactor) (p : Addr) (ev : Revent) (fd : ℕ) (q : Addr) : Option Revent :=
  if q = p then some { ev with next := r.events fd, prev := none }
  else if r.events fd = some q then (r.mem.lookup q).map fun e => { e with prev := some p }
  else r.mem.lookup q

theorem pushed_self (r : Reactor) (p : Addr) (ev : Revent) (fd : ℕ) :
    r.pushed p ev fd p = some { ev with next := r.events fd, prev := none } := if_pos rfl

/-- The other nodes change at most in their pointers back. -/
theorem pushed_of_ne (r : Reactor) (ev : Revent) (fd : ℕ) {q : Addr} (hq : q ≠ p) :
    r.pushed p ev fd q = (r.mem.lookup q).map fun e =>
      { e with prev := if r.events fd = some q then some p else e.prev } := by
  rw [pushed, if_neg hq]
  split_ifs
  · rfl
  · cases r.mem.lookup q <;> rfl

theorem pushed_data (r : Reactor) (fd : ℕ) {ev ev' : Revent} (hp : r.mem.lookup p = some ev)
    (hdata : data ev' = data ev) (q : Addr) :
    (r.pushed p ev' fd q).map data = (r.mem.lookup q).map data := by
  by_cases hq : q = p
  · rw [hq, pushed_self, hp]
    exact congrArg some hdata
  · rw [pushed_of_ne r ev' fd hq, Option.map_map]
    rfl

/-- What `revent_add` does to the memory. -/
theorem pushEvent_eq {ev : Revent} {fd : ℕ} (hp : r.mem.lookup p = some ev) (hnext : ev.next = none)
    (hprev : ev.prev = none)
    (hhead : ∀ q, r.events fd = some q → q ≠ p ∧ (r.mem.lookup q).isSome) :
    ∃ mem', r.pushEvent p fd =
        some { r with mem := mem', events := Function.update r.events fd (some p) } ∧
      ∀ q, mem'.lookup q = r.pushed p { ev with status := 1 } fd q := by
  simp only [pushed]
  cases hevents : r.events fd with
  | none =>
    refine ⟨r.mem.insert p { ev with status := 1 }, ?_, ?_⟩
    · simp [pushEvent, hevents, Memory.write_eq hp]
    · intro q
      rw [Table.lookup_insert_eq]
      split_ifs with hq h
      · rw [hnext, hprev]
      · cases h
      · rfl
  | some head =>
    obtain ⟨hne, hsome⟩ := hhead head hevents
    obtain ⟨e, he⟩ := Option.isSome_iff_exists.mp hsome
    set mem₁ : Memory Revent := r.mem.insert head { e with prev := some p } with hmem₁
    have hp₁ : mem₁.lookup p = some ev := by
      rw [hmem₁, Table.lookup_insert_eq, if_neg hne.symm, hp]
    set mem₂ : Memory Revent := mem₁.insert p { ev with next := some head, prev := none } with hmem₂
    have hp₂ : mem₂.lookup p = some { ev with next := some head, prev := none } := by
      rw [hmem₂, Table.lookup_insert_eq, if_pos rfl]
    refine ⟨mem₂.insert p { ev with status := 1, next := some head, prev := none }, ?_, ?_⟩
    · simp [pushEvent, hevents, Memory.write_eq he, ← hmem₁, Memory.write_eq hp₁, ← hmem₂,
        Memory.write_eq hp₂]
    · intro q
      rw [Table.lookup_insert_eq, hmem₂, Table.lookup_insert_eq, hmem₁, Table.lookup_insert_eq]
      split_ifs with hq hqh h h
      · rfl
      · rw [hqh, he]
        rfl
      · exact absurd (congrArg some hqh.symm) h
      · exact absurd (Option.some_inj.mp h).symm hqh
      · rfl

namespace Consistent

/-- One list changes. The nodes of the others have their pointers, descriptors and masks, and the
registration is that of the new list. -/
theorem change (h : r.Consistent lists) {fd : ℕ} {head : Option Addr} {l : List Addr}
    {epoll' : Table ℕ EpollEvent}
    (hlinked : Linked (nextOf mem') (prevOf mem') none head l) (hnodup : l.Nodup)
    (hnode : ∀ q ∈ l, ∃ e, mem'.lookup q = some e ∧ e.fd = fd ∧ fd < maxEpollEvents ∧
      (e.events = epollIn ∨ e.events = epollOut))
    (hother : ∀ fd' ≠ fd, ∀ q ∈ lists fd', ∀ e, r.mem.lookup q = some e →
      ∃ e', mem'.lookup q = some e' ∧ e'.next = e.next ∧ e'.prev = e.prev ∧ data e' = data e)
    (hstatus : ∀ q e, mem'.lookup q = some e →
      (e.status = 1 ↔ q ∈ Function.update lists fd l e.fd))
    (hepoll : ∀ fd', epoll'.lookup fd' =
      if fd' = fd then registration mem' l else r.epoll.lookup fd') :
    ({ mem := mem', events := Function.update r.events fd head, epoll := epoll' } :
      Reactor).Consistent (Function.update lists fd l) := by
  constructor
  · intro fd'
    by_cases hfd' : fd' = fd
    · subst hfd'
      simp only [Function.update_self]
      exact hlinked
    · simp only [Function.update_of_ne hfd']
      refine (h.linked fd').congr (fun q hq => ?_) fun q hq => ?_ <;>
        obtain ⟨e, he, -⟩ := h.node fd' q hq <;>
        obtain ⟨e', he', hnext, hprev, -⟩ := hother fd' hfd' q hq e he
      · simp [nextOf, he, he', hnext]
      · simp [prevOf, he, he', hprev]
  · intro fd'
    by_cases hfd' : fd' = fd
    · subst hfd'
      rw [Function.update_self]
      exact hnodup
    · rw [Function.update_of_ne hfd']
      exact h.nodup fd'
  · intro fd' q hq
    by_cases hfd' : fd' = fd
    · subst hfd'
      rw [Function.update_self] at hq
      exact hnode q hq
    · rw [Function.update_of_ne hfd'] at hq
      obtain ⟨e, he, hfd, hevents⟩ := h.node fd' q hq
      obtain ⟨e', he', -, -, hdata⟩ := hother fd' hfd' q hq e he
      simp only [data, Prod.mk.injEq] at hdata
      rw [← hdata.1] at hfd
      rw [← hdata.2.1] at hevents
      exact ⟨e', he', hfd, hevents⟩
  · exact hstatus
  · intro fd'
    show epoll'.lookup fd' = registration mem' _
    rw [hepoll]
    split_ifs with hfd'
    · rw [hfd', Function.update_self]
    · rw [Function.update_of_ne hfd', h.registered, registration, registration, maskOf_congr]
      intro q hq
      obtain ⟨e, he, -⟩ := h.node fd' q hq
      obtain ⟨e', he', -, -, hdata⟩ := hother fd' hfd' q hq e he
      simp only [data, Prod.mk.injEq] at hdata
      simp [eventsOf, he, he', hdata.2.1]

/-- A node is put at the head of the list of the descriptor `fd`, and registered. -/
theorem push (h : r.Consistent lists) (hp : ∀ fd, p ∉ lists fd) {ev : Revent} {fd : ℕ}
    (hmem : ∀ q, mem'.lookup q = r.pushed p ev fd q) (hfd : ev.fd = fd) (hlt : fd < maxEpollEvents)
    (hevents : ev.events = epollIn ∨ ev.events = epollOut) (hstatus : ev.status = 1)
    {epoll' : Table ℕ EpollEvent} (hepoll : ∀ fd', epoll'.lookup fd' =
      if fd' = fd then some ⟨maskOf mem' (p :: lists fd), p⟩ else r.epoll.lookup fd') :
    ({ mem := mem', events := Function.update r.events fd (some p), epoll := epoll' } :
      Reactor).Consistent (Function.update lists fd (p :: lists fd)) := by
  have hlookup : mem'.lookup p = some { ev with next := r.events fd, prev := none } := by
    rw [hmem, pushed_self]
  have hnode : ∀ fd', ∀ q ∈ lists fd', ∀ e, r.mem.lookup q = some e →
      mem'.lookup q = some { e with prev := if r.events fd = some q then some p else e.prev } := by
    intro fd' q hq e he
    have hqp : q ≠ p := by
      rintro rfl
      exact hp fd' hq
    rw [hmem, pushed_of_ne r ev fd hqp, he, Option.map_some]
  apply h.change
  · -- the pointers of the list
    refine (h.linked fd).push (h.nodup fd) ?_ ?_ (fun q hq => ?_) fun q hq => ?_
    · simp [nextOf, hlookup]
    · simp [prevOf, hlookup]
    · obtain ⟨e, he, -⟩ := h.node fd q hq
      simp [nextOf, he, hnode fd q hq e he]
    · obtain ⟨e, he, -⟩ := h.node fd q hq
      simp [prevOf, he, hnode fd q hq e he]
  · exact List.nodup_cons.mpr ⟨hp fd, h.nodup fd⟩
  · intro q hq
    rcases List.mem_cons.mp hq with rfl | hq
    · exact ⟨_, hlookup, hfd, hlt, hevents⟩
    · obtain ⟨e, he, hnode₀⟩ := h.node fd q hq
      exact ⟨_, hnode fd q hq e he, hnode₀⟩
  · intro fd' hfd' q hq e he
    refine ⟨_, hnode fd' q hq e he, rfl, ?_, rfl⟩
    exact if_neg fun hhead => hfd' (h.fd_unique hq (h.head_mem hhead))
  · intro q e hq
    by_cases hqp : q = p
    · subst hqp
      cases hlookup.symm.trans hq
      simp [hfd, hstatus]
    · -- the status and the descriptor of the other nodes are as before
      rw [hmem, pushed_of_ne r ev fd hqp] at hq
      obtain ⟨e₀, he₀, rfl⟩ := Option.map_eq_some_iff.mp hq
      rw [h.status q e₀ he₀]
      by_cases hfd' : e₀.fd = fd
      · simp only [hfd', Function.update_self, List.mem_cons, or_iff_right hqp]
      · simp only [Function.update_of_ne hfd']
  · exact hepoll

/-- **`revent_add`** puts a node that is not in a list at the head of its list. -/
theorem reventAdd (h : r.Consistent lists) (hp : ∀ fd, p ∉ lists fd) {ev : Revent}
    (hev : r.mem.lookup p = some ev) (hstatus : ev.status = 0) (hnext : ev.next = none)
    (hprev : ev.prev = none) (hfd : ev.fd < maxEpollEvents)
    (hevents : ev.events = epollIn ∨ ev.events = epollOut) :
    ∃ r', r.reventAdd p = some (true, r') ∧
      r'.Consistent (Function.update lists ev.fd (p :: lists ev.fd)) ∧
      SameData r.mem r'.mem := by
  obtain ⟨mem', hpush, hmem⟩ := pushEvent_eq hev hnext hprev (h.head_ne hp ev.fd)
  have hdata : SameData r.mem mem' := by
    intro q
    rw [hmem]
    exact pushed_data r ev.fd hev (by rfl) q
  have hlookup : r.epoll.lookup ev.fd = registration r.mem (lists ev.fd) := h.registered ev.fd
  -- whatever `epoll_ctl` is asked for, the registration is the one that belongs to the new list
  have hpushed : (⟨mem', Function.update r.events ev.fd (some p),
      r.epoll.insert ev.fd ⟨maskOf mem' (p :: lists ev.fd), p⟩⟩ : Reactor).Consistent
      (Function.update lists ev.fd (p :: lists ev.fd)) :=
    h.push hp hmem rfl hfd hevents rfl fun fd' => Table.lookup_insert_eq _ _ _ _
  refine ⟨_, ?_, hpushed, hdata⟩
  cases hlist : lists ev.fd with
  | nil =>
    rw [hlist] at hlookup
    have hmask : maskOf mem' [p] = ev.events := by
      simp [maskOf, eventsOf, hmem, pushed_self]
    simp [Reactor.reventAdd, hev, hstatus, hfd, hpush, epollCtl, hlookup, registration, hmask]
  | cons q l =>
    rw [hlist] at hlookup
    have hmask := hpushed.orEvents_eq ev.fd
    simp only [Function.update_self, hlist] at hmask
    simp [Reactor.reventAdd, hev, hstatus, hfd, hpush, epollCtl, hlookup, registration, hmask]

end Consistent

/-! ## Deleting a node -/

/-- What is left of a node when `p`, with the pointers of `ev`, is taken out of its list. -/
def unlinked (p : Addr) (ev : Revent) (q : Addr) (e : Revent) : Revent :=
  { e with
    next := if ev.prev = some q then ev.next else e.next
    prev := if ev.next = some q then ev.prev else e.prev
    status := if q = p then 0 else e.status }

/-- What `revent_del` does to the memory. -/
theorem unlinkEvent_eq {ev : Revent} (hp : r.mem.lookup p = some ev)
    (hprev : ∀ q, ev.prev = some q → q ≠ p ∧ (r.mem.lookup q).isSome)
    (hnext : ∀ q, ev.next = some q → q ≠ p ∧ (r.mem.lookup q).isSome) :
    ∃ mem', r.unlinkEvent p ev = some { r with
        mem := mem'
        events := if r.events ev.fd = some p then Function.update r.events ev.fd ev.next
          else r.events } ∧
      ∀ q, mem'.lookup q = (r.mem.lookup q).map (unlinked p ev q) := by
  obtain ⟨mem₁, hmem₁, hlookup₁⟩ := Memory.exists_writeThrough (fun q hq => (hprev q hq).2)
    fun e : Revent => { e with next := ev.next }
  have hnext₁ : ∀ q, ev.next = some q → (mem₁.lookup q).isSome := by
    intro q hq
    rw [hlookup₁]
    split_ifs
    · rw [Option.isSome_map]
      exact (hnext q hq).2
    · exact (hnext q hq).2
  obtain ⟨mem₂, hmem₂, hlookup₂⟩ := Memory.exists_writeThrough hnext₁
    fun e : Revent => { e with prev := ev.prev }
  -- the node itself has no pointer to itself
  have hp₂ : mem₂.lookup p = some ev := by
    rw [hlookup₂, if_neg fun h => (hnext p h).1 rfl, hlookup₁, if_neg fun h => (hprev p h).1 rfl,
      hp]
  refine ⟨mem₂.insert p { ev with status := 0 }, ?_, ?_⟩
  · simp [unlinkEvent, hmem₁, hmem₂, Memory.write_eq hp₂]
  · intro q
    rw [Table.lookup_insert_eq, hlookup₂, hlookup₁]
    by_cases hqp : q = p
    · subst hqp
      rw [if_pos rfl, hp]
      simp [unlinked]
    · rw [if_neg hqp]
      cases r.mem.lookup q with
      | none => simp
      | some e =>
        simp only [Option.map_some, unlinked, if_neg hqp]
        split_ifs <;> rfl

namespace Consistent

/-- The pointers of a listed node are to other nodes of its list. -/
theorem next_prev_mem (h : r.Consistent lists) {ev : Revent} (hev : r.mem.lookup p = some ev)
    (hp : p ∈ lists ev.fd) {q : Addr} (hq : ev.next = some q ∨ ev.prev = some q) :
    q ∈ lists ev.fd ∧ q ≠ p := by
  have hlinked := h.linked ev.fd
  have hnd := h.nodup ev.fd
  have hnext : nextOf r.mem p = ev.next := by simp [nextOf, hev]
  have hprev : prevOf r.mem p = ev.prev := by simp [prevOf, hev]
  have hself := hlinked.next_ne_self hnd hp
  rcases hq with hq | hq
  · rw [← hnext] at hq
    refine ⟨List.mem_of_mem_tail (hlinked.next_mem hp hq), ?_⟩
    rintro rfl
    exact hself hq
  · rw [← hprev] at hq
    rcases hlinked.prev_mem hp with ⟨-, hnone⟩ | ⟨q', hq', hprev'⟩
    · cases hnone.symm.trans hq
    · cases hprev'.symm.trans hq
      refine ⟨hq', ?_⟩
      rintro rfl
      exact hself ((hlinked.next_iff_prev hnd (by simp) hp hp).mpr hq)

/-- A node that is taken out of its list is in no other one. -/
theorem not_mem_erase (h : r.Consistent lists) {fd : ℕ} (hp : p ∈ lists fd) (fd' : ℕ) :
    p ∉ Function.update lists fd ((lists fd).erase p) fd' := by
  intro hmem
  by_cases hfd' : fd' = fd
  · subst hfd'
    rw [Function.update_self] at hmem
    exact (h.nodup fd').not_mem_erase hmem
  · rw [Function.update_of_ne hfd'] at hmem
    exact hfd' (h.fd_unique hmem hp)

/-- The pointers of the list without the node. -/
theorem linked_erase (h : r.Consistent lists) {ev : Revent} (hev : r.mem.lookup p = some ev)
    (hp : p ∈ lists ev.fd)
    (hnode : ∀ q e, r.mem.lookup q = some e → mem'.lookup q = some (unlinked p ev q e)) :
    Linked (nextOf mem') (prevOf mem') none
      (if r.events ev.fd = some p then ev.next else r.events ev.fd) ((lists ev.fd).erase p) := by
  have hnextp : nextOf r.mem p = ev.next := by simp [nextOf, hev]
  have hprevp : prevOf r.mem p = ev.prev := by simp [prevOf, hev]
  obtain ⟨X, Y, -, hXY, herase⟩ := List.exists_erase_eq hp
  have hmem_l : ∀ q ∈ X ++ Y, q ∈ lists ev.fd := by
    intro q hq
    rw [← herase] at hq
    exact List.mem_of_mem_erase hq
  have hlinked := h.linked ev.fd
  have hnd := h.nodup ev.fd
  rw [hXY] at hlinked hnd
  rw [herase, ← hnextp]
  refine hlinked.unlink hnd (by simp) (fun q hq => ?_) fun q hq => ?_
  · obtain ⟨e, he, -⟩ := h.node ev.fd q (hmem_l q hq)
    rw [hnextp, hprevp]
    simp [nextOf, he, hnode q e he, unlinked]
  · obtain ⟨e, he, -⟩ := h.node ev.fd q (hmem_l q hq)
    rw [hnextp, hprevp]
    simp [prevOf, he, hnode q e he, unlinked]

/-- A node is taken out of its list, and the registration is that of the rest. -/
theorem unlink (h : r.Consistent lists) {ev : Revent} (hev : r.mem.lookup p = some ev)
    (hstatus : ev.status = 1)
    (hmem : ∀ q, mem'.lookup q = (r.mem.lookup q).map (unlinked p ev q))
    {epoll' : Table ℕ EpollEvent} (hepoll : ∀ fd', epoll'.lookup fd' =
      if fd' = ev.fd then registration mem' ((lists ev.fd).erase p) else r.epoll.lookup fd') :
    (⟨mem', if r.events ev.fd = some p then Function.update r.events ev.fd ev.next else r.events,
      epoll'⟩ : Reactor).Consistent (Function.update lists ev.fd ((lists ev.fd).erase p)) := by
  have hp : p ∈ lists ev.fd := (h.status p ev hev).mp hstatus
  have hnode : ∀ q e, r.mem.lookup q = some e → mem'.lookup q = some (unlinked p ev q e) := by
    intro q e he
    rw [hmem, he]
    rfl
  have hhead : (if r.events ev.fd = some p then Function.update r.events ev.fd ev.next
      else r.events) =
      Function.update r.events ev.fd
        (if r.events ev.fd = some p then ev.next else r.events ev.fd) := by
    split_ifs
    · rfl
    · exact (Function.update_eq_self _ _).symm
  rw [hhead]
  apply h.change
  · exact h.linked_erase hev hp hnode
  · exact (h.nodup ev.fd).erase p
  · intro q hq
    obtain ⟨e, he, hnode₀⟩ := h.node ev.fd q (List.mem_of_mem_erase hq)
    exact ⟨_, hnode q e he, hnode₀⟩
  · -- no node of another list is next to the node
    intro fd' hfd' q hq e he
    refine ⟨_, hnode q e he, if_neg fun hn => ?_, if_neg fun hn => ?_, rfl⟩
    · exact hfd' (h.fd_unique hq (h.next_prev_mem hev hp (.inr hn)).1)
    · exact hfd' (h.fd_unique hq (h.next_prev_mem hev hp (.inl hn)).1)
  · intro q e' hq
    rw [hmem] at hq
    obtain ⟨e, he, rfl⟩ := Option.map_eq_some_iff.mp hq
    show (if q = p then 0 else e.status) = 1 ↔ q ∈ Function.update lists ev.fd _ e.fd
    by_cases hqp : q = p
    · subst hqp
      cases hev.symm.trans he
      rw [if_pos rfl, Function.update_self]
      exact iff_of_false Nat.zero_ne_one (h.nodup ev.fd).not_mem_erase
    · rw [if_neg hqp, h.status q e he]
      by_cases hfd' : e.fd = ev.fd
      · rw [hfd', Function.update_self, List.mem_erase_of_ne hqp]
      · rw [Function.update_of_ne hfd']
  · exact hepoll

/-- The mask of a list that is not empty is not zero. -/
theorem maskOf_ne_zero (h : r.Consistent lists) {fd : ℕ} {l : List Addr}
    (hl : lists fd = p :: l) : maskOf r.mem (p :: l) ≠ 0 := by
  obtain ⟨e, he, -, -, hevents⟩ := h.node fd p (by simp [hl])
  rw [maskOf, List.map_cons, List.foldl_cons, Nat.zero_or]
  apply foldl_or_ne_zero
  rw [eventsOf, he]
  rcases hevents with hevents | hevents
  · simp [hevents, epollIn]
  · simp [hevents, epollOut]

/-- **`revent_del`** takes a node out of its list. -/
theorem reventDel (h : r.Consistent lists) {ev : Revent} (hev : r.mem.lookup p = some ev)
    (hstatus : ev.status = 1) :
    ∃ r', r.reventDel p = some (true, r') ∧
      r'.Consistent (Function.update lists ev.fd ((lists ev.fd).erase p)) ∧
      SameData r.mem r'.mem := by
  have hp : p ∈ lists ev.fd := (h.status p ev hev).mp hstatus
  obtain ⟨e, he, -, hfd, -⟩ := h.node ev.fd p hp
  have hneighbour : ∀ q, ev.next = some q ∨ ev.prev = some q → q ≠ p ∧ (r.mem.lookup q).isSome := by
    intro q hq
    obtain ⟨hmem, hne⟩ := h.next_prev_mem hev hp hq
    exact ⟨hne, h.isSome hmem⟩
  obtain ⟨mem', hunlink, hmem⟩ := unlinkEvent_eq hev (fun q hq => hneighbour q (.inr hq))
    fun q hq => hneighbour q (.inl hq)
  have hdata : SameData r.mem mem' := by
    intro q
    rw [hmem, Option.map_map]
    rfl
  obtain ⟨reg, hreg⟩ : ∃ reg, r.epoll.lookup ev.fd = some reg := by
    rw [h.registered, registration]
    cases hl : lists ev.fd with
    | nil => simp [hl] at hp
    | cons q l => exact ⟨_, rfl⟩
  -- the registration that belongs to the rest of the list
  have hunlinked : Consistent ⟨mem', _, r.epoll.assign ev.fd
      (registration mem' ((lists ev.fd).erase p))⟩ _ :=
    h.unlink hev hstatus hmem fun fd' => Table.lookup_assign _ _ _ _
  refine ⟨_, ?_, hunlinked, hdata⟩
  have hmask := hunlinked.orEvents_eq ev.fd
  have hhead := (hunlinked.linked ev.fd).eq_head?
  simp only [Function.update_self] at hmask hhead
  cases hrest : (lists ev.fd).erase p with
  | nil =>
    rw [hrest] at hmask hhead
    simp only [List.head?_nil] at hhead
    rw [hhead] at hmask
    simp [Reactor.reventDel, hev, hstatus, hfd, hunlink, hmask, hhead, epollCtl, hreg, registration,
      Table.assign]
  | cons q l =>
    have hlist : Function.update lists ev.fd ((lists ev.fd).erase p) ev.fd = q :: l := by
      rw [Function.update_self, hrest]
    have hne := hunlinked.maskOf_ne_zero hlist
    rw [hrest] at hmask hhead
    simp only [List.head?_cons] at hhead
    rw [hhead] at hmask
    simp [Reactor.reventDel, hev, hstatus, hfd, hunlink, hmask, hhead, hne, epollCtl, hreg,
      registration, Table.assign]

end Consistent

/-! ## Sequences of operations -/

/-- The nodes of a list, found by following the pointers. -/
def follow (mem : Memory Revent) : ℕ → Option Addr → List Addr
  | _, none => []
  | 0, some _ => []
  | fuel + 1, some p => p :: follow mem fuel (nextOf mem p)

/-- The node `p` is in the list of its descriptor. -/
def Listed (r : Reactor) (p : Addr) : Prop :=
  ∃ e ∈ r.mem.lookup p, p ∈ follow r.mem r.mem.keys.length (r.events e.fd)

instance (r : Reactor) (p : Addr) : Decidable (r.Listed p) :=
  match h : r.mem.lookup p with
  | none => isFalse (by simp [Listed, h])
  | some e => decidable_of_iff (p ∈ follow r.mem r.mem.keys.length (r.events e.fd))
      (by simp [Listed, h])

theorem follow_eq {b p : Option Addr} {l : List Addr} {fuel : ℕ}
    (h : Linked (nextOf mem) (prevOf mem) b p l) (hfuel : l.length ≤ fuel) :
    follow mem fuel p = l := by
  induction l generalizing b p fuel with
  | nil =>
    obtain rfl : p = none := h
    cases fuel <;> rfl
  | cons q l ih =>
    obtain ⟨rfl, -, h⟩ := h
    cases fuel with
    | zero => exact absurd hfuel (Nat.not_succ_le_zero _)
    | succ fuel => rw [follow, ih h (Nat.le_of_succ_le_succ hfuel)]

/-- Nodes are added that are set and in no list, for one kind of event, and nodes are deleted that
are in their list. -/
def Allowed (r : Reactor) : Op → Prop
  | .add p fd event _ _ =>
    fd < maxEpollEvents ∧ (event = epollIn ∨ event = epollOut) ∧ ¬ r.Listed p
  | .del p => r.Listed p
  | .free p => (r.mem.lookup p).isSome ∧ ¬ r.Listed p

instance (r : Reactor) : ∀ op, Decidable (r.Allowed op)
  | .add _ _ _ _ _ => inferInstanceAs (Decidable (_ ∧ _ ∧ _))
  | .del p => inferInstanceAs (Decidable (r.Listed p))
  | .free _ => inferInstanceAs (Decidable (_ ∧ _))

namespace Consistent

theorem follow_eq (h : r.Consistent lists) (fd : ℕ) :
    follow r.mem r.mem.keys.length (r.events fd) = lists fd :=
  Reactor.follow_eq (h.linked fd) (length_le_keys (h.nodup fd) fun _ hq => h.isSome hq)

theorem listed_iff (h : r.Consistent lists) : r.Listed p ↔ ∃ fd, p ∈ lists fd := by
  constructor
  · rintro ⟨e, -, hmem⟩
    rw [h.follow_eq] at hmem
    exact ⟨e.fd, hmem⟩
  · rintro ⟨fd, hp⟩
    obtain ⟨e, he, rfl, -⟩ := h.node fd p hp
    refine ⟨e, he, ?_⟩
    rw [h.follow_eq]
    exact hp

/-- One operation. -/
theorem step (h : r.Consistent lists) {op : Op} (hop : r.Allowed op) :
    ∃ r', r.step op = some r' ∧ ∃ lists', r'.Consistent lists' := by
  cases op with
  | add p fd event length callback =>
    obtain ⟨hfd, hevent, hnot⟩ := hop
    have hp : ∀ fd, p ∉ lists fd := fun fd hp => hnot (h.listed_iff.mpr ⟨fd, hp⟩)
    set ev : Revent := reventSet ((r.mem.lookup p).getD zeroed) fd event length 0 callback with hev
    have hset : Consistent { r with mem := r.mem.insert p ev } lists := h.set hp Nat.zero_ne_one
    obtain ⟨r', hr', h', -⟩ := hset.reventAdd hp
      (by rw [Table.lookup_insert_eq, if_pos rfl]) rfl rfl rfl hfd hevent
    exact ⟨r', by rw [Reactor.step, ← hev, hr']; rfl, _, h'⟩
  | del p =>
    obtain ⟨fd, hp⟩ := h.listed_iff.mp hop
    obtain ⟨ev, hev, rfl, -⟩ := h.node fd p hp
    obtain ⟨r', hr', h', -⟩ := h.reventDel hev ((h.status p ev hev).mpr hp)
    exact ⟨r', by rw [Reactor.step, hr']; rfl, _, h'⟩
  | free p =>
    obtain ⟨hsome, hnot⟩ := hop
    obtain ⟨e, he⟩ := Option.isSome_iff_exists.mp hsome
    have hp : ∀ fd, p ∉ lists fd := fun fd hp => hnot (h.listed_iff.mpr ⟨fd, hp⟩)
    exact ⟨_, by rw [Reactor.step, he]; rfl, _, h.free hp⟩

/-- A sequence of operations. -/
theorem exists_run (h : r.Consistent lists) {ops : List Op}
    (hops : PartialMachine.Meets Reactor.step Allowed r ops) :
    ∃ r', ops.foldlM Reactor.step r = some r' ∧ ∃ lists', r'.Consistent lists' := by
  have hstep : ∀ (r : Reactor) (op : Op), (∃ lists, r.Consistent lists) → r.Allowed op →
      ∃ r', r.step op = some r' ∧ ∃ lists, r'.Consistent lists := by
    rintro r op ⟨lists, h⟩ hop
    exact h.step hop
  exact PartialMachine.exists_run hstep ⟨lists, h⟩ hops

end Consistent

/-- The bookkeeping of a reactor whose lists have the nodes `lists`: for every descriptor the list
is doubly linked, its pointers are inverse to each other and the head has nothing before it, the
nodes in it are those with status 1, and the kernel has a registration exactly if it is not empty,
with the masks of the nodes together and a pointer to the head, which is allocated. -/
structure Bookkeeping (r : Reactor) (lists : ℕ → List Addr) : Prop where
  linked : ∀ fd, Linked (nextOf r.mem) (prevOf r.mem) none (r.events fd) (lists fd)
  inverse : ∀ fd, ∀ p ∈ lists fd, ∀ q ∈ lists fd,
    nextOf r.mem p = some q ↔ prevOf r.mem q = some p
  head : ∀ fd p, r.events fd = some p → prevOf r.mem p = none
  status : ∀ p e, r.mem.lookup p = some e → (e.status = 1 ↔ p ∈ lists e.fd)
  registered : ∀ fd, (r.epoll.lookup fd).isSome ↔ lists fd ≠ []
  mask : ∀ fd, ∀ reg ∈ r.epoll.lookup fd, reg.events = maskOf r.mem (lists fd)
  ptr : ∀ fd, ∀ reg ∈ r.epoll.lookup fd, r.events fd = some reg.ptr ∧
    ∃ e, r.mem.lookup reg.ptr = some e ∧ e.fd = fd

theorem Consistent.bookkeeping (h : r.Consistent lists) : r.Bookkeeping lists := by
  constructor
  · exact h.linked
  · intro fd p hp q hq
    exact (h.linked fd).next_iff_prev (h.nodup fd) (by simp) hp hq
  · intro fd p hp
    have hlinked := h.linked fd
    cases hl : lists fd with
    | nil =>
      rw [hl] at hlinked
      exact absurd (hlinked.symm.trans hp) (by simp)
    | cons q l =>
      rw [hl] at hlinked
      cases hlinked.1.symm.trans hp
      exact hlinked.2.1
  · exact h.status
  · intro fd
    rw [h.registered, registration, Option.isSome_map, List.isSome_head?]
  · intro fd reg hreg
    rw [h.registered, registration, Option.mem_map] at hreg
    obtain ⟨p, -, rfl⟩ := hreg
    rfl
  · intro fd reg hreg
    rw [h.registered, registration, Option.mem_map] at hreg
    obtain ⟨p, hp, rfl⟩ := hreg
    refine ⟨(h.linked fd).eq_head?.trans hp, ?_⟩
    obtain ⟨e, he, hfd, -⟩ := h.node fd p (List.mem_of_head? hp)
    exact ⟨e, he, hfd⟩

/-- Every sequence of allowed operations runs to its end, and ends in a reactor whose lists and
registrations belong together. -/
theorem bookkeeping_run (ops : List Op) (hops : PartialMachine.Meets step Allowed init ops) :
    ∃ r, ops.foldlM step init = some r ∧ ∃ lists, r.Bookkeeping lists := by
  obtain ⟨r, hr, lists, h⟩ := consistent_init.exists_run hops
  exact ⟨r, hr, lists, h.bookkeeping⟩

/-! ## The size of the array -/

/-- `Allowed`, for nodes of any descriptor. -/
def Permitted (r : Reactor) : Op → Prop
  | .add p _ event _ _ => (event = epollIn ∨ event = epollOut) ∧ ¬ r.Listed p
  | .del p => r.Listed p
  | .free p => (r.mem.lookup p).isSome ∧ ¬ r.Listed p

instance (r : Reactor) : ∀ op, Decidable (r.Permitted op)
  | .add _ _ _ _ _ => inferInstanceAs (Decidable (_ ∧ _))
  | .del p => inferInstanceAs (Decidable (r.Listed p))
  | .free _ => inferInstanceAs (Decidable (_ ∧ _))

/-- The descriptor of a node that is added is an index of the array of lists. -/
def Op.InArray : Op → Prop
  | .add _ fd _ _ _ => fd < maxEpollEvents
  | _ => True

instance : ∀ op : Op, Decidable op.InArray
  | .add _ fd _ _ _ => inferInstanceAs (Decidable (fd < maxEpollEvents))
  | .del _ | .free _ => inferInstanceAs (Decidable True)

theorem allowed_iff {op : Op} : r.Allowed op ↔ op.InArray ∧ r.Permitted op := by
  cases op with
  | add p fd event length callback => exact Iff.rfl
  | del p => exact (and_iff_right trivial).symm
  | free p => exact (and_iff_right trivial).symm

/-- `revent_add` goes on only with an index of the array. -/
theorem inArray_of_step {op : Op} {r' : Reactor} (h : r.step op = some r') : op.InArray := by
  cases op with
  | add p fd event length callback =>
    by_contra hfd
    have hle : maxEpollEvents ≤ fd := not_lt.mp hfd
    simp [step, Reactor.reventAdd, reventSet, hle] at h
  | del p => trivial
  | free p => trivial

/-- **The bookkeeping of the reactor matches the kernel while the descriptors fit the array.** A
sequence of `revent_add` on nodes that were set before and of `revent_del` on nodes that are listed
runs to its end, in a reactor whose lists and registrations belong together, if and only if the
descriptor of every node that is added is an index of the array. -/
theorem bookkeeping_iff (ops : List Op) (hops : PartialMachine.Meets step Permitted init ops) :
    (∃ r, ops.foldlM step init = some r ∧ ∃ lists, r.Bookkeeping lists) ↔
      ∀ op ∈ ops, op.InArray := by
  constructor
  · rintro ⟨r, hr, -⟩
    have hstep : ∀ (r : Reactor) (op : Op) (r' : Reactor), r.step op = some r' → op.InArray :=
      fun _ _ _ => inArray_of_step
    exact PartialMachine.forall_mem_of_run hstep hr
  · intro harray
    refine bookkeeping_run ops ?_
    exact ((PartialMachine.meets_of_forall harray).and hops).mono fun _ _ => allowed_iff.mpr

/-- A descriptor that is waited on for reading and for writing: the node in the middle of three is
deleted and freed. -/
theorem bookkeeping_three_nodes :
    ∃ r, [Op.add 1 5 epollIn 0 .recvCallback, .add 2 5 epollOut 3 .sendCallback,
        .add 3 5 epollOut 4 .sendCallback, .del 2, .free 2].foldlM step init = some r ∧
      ∃ lists, r.Bookkeeping lists :=
  (bookkeeping_iff _ (by decide +kernel)).mpr (by decide)

/-- A listener on descriptor 1024: `revent_add` reads and writes behind the array. -/
theorem not_bookkeeping_1024 :
    PartialMachine.Meets step Permitted init [.add 1 1024 epollIn 0 .acceptCallback] ∧
      ¬ ∃ r, [Op.add 1 1024 epollIn 0 .acceptCallback].foldlM step init = some r ∧
        ∃ lists, r.Bookkeeping lists := by
  refine ⟨by decide +kernel, ?_⟩
  rintro ⟨r, hr, -⟩
  have hnone : [Op.add 1 1024 epollIn 0 .acceptCallback].foldlM step init = none := by
    simp [step, Reactor.reventAdd, reventSet, maxEpollEvents]
  rw [hnone] at hr
  cases hr

end CodeTest.Reactor
