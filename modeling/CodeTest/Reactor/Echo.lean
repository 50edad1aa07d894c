import CodeTest.Reactor.Listed
import CodeTest.Reactor.Server

/-!
# The order of the echo

What was received and not yet sent stands in the events for writing of a descriptor (`outgoing`).
As long as there is at most one of them, what was sent and what stands in it are what was received.
New events are put at the head of the list, so with two of them the later one is sent first.
-/

namespace CodeTest.Reactor

variable {r r' : Reactor} {lists : ℕ → List Addr} {mem mem' : Memory Revent} {p : Addr}

/-- The first node of a linked list that waits for an event of the mask. -/
theorem findEvent_eq {b p : Option Addr} {l : List Addr} {fuel mask : ℕ}
    (h : Linked (nextOf mem) (prevOf mem) b p l) (halloc : ∀ q ∈ l, (mem.lookup q).isSome)
    (hfuel : l.length ≤ fuel) :
    findEvent mem mask fuel p = some (l.find? fun q => eventsOf mem q &&& mask ≠ 0) := by
  induction l generalizing b p fuel with
  | nil =>
    obtain rfl : p = none := h
    cases fuel <;> rfl
  | cons q l ih =>
    obtain ⟨rfl, -, h⟩ := h
    obtain ⟨e, he⟩ := Option.isSome_iff_exists.mp (halloc q List.mem_cons_self)
    cases fuel with
    | zero => exact absurd hfuel (Nat.not_succ_le_zero _)
    | succ fuel =>
      have hnext : nextOf mem q = e.next := by simp [nextOf, he]
      have hevents : eventsOf mem q = e.events := by simp [eventsOf, he]
      rw [hnext] at h
      have hrest := ih h (fun q hq => halloc q (List.mem_cons_of_mem _ hq))
        (Nat.le_of_succ_le_succ hfuel)
      by_cases hmask : e.events &&& mask ≠ 0
      · rw [List.find?_cons_of_pos (by simpa [hevents] using hmask)]
        simp [findEvent, he, hmask]
      · rw [List.find?_cons_of_neg (by simpa [hevents] using hmask), ← hrest]
        simp [findEvent, he, hmask]

/-- A change of a buffer keeps the masks. -/
theorem eventsOf_setBuffer {e : Revent} (he : mem.lookup p = some e) (buffer : List UInt8)
    (q : Addr) : eventsOf (mem.insert p { e with buffer }) q = eventsOf mem q := by
  rw [eventsOf, eventsOf, Table.lookup_insert_eq]
  split_ifs with hq
  · rw [hq, he]
    rfl
  · rfl

namespace Consistent

theorem findEvent_eq (h : r.Consistent lists) (fd mask : ℕ) :
    findEvent r.mem mask r.mem.keys.length (r.events fd) =
      some ((lists fd).find? fun q => eventsOf r.mem q &&& mask ≠ 0) :=
  Reactor.findEvent_eq (h.linked fd) (fun _ hq => h.isSome hq)
    (length_le_keys (h.nodup fd) fun _ hq => h.isSome hq)

/-- A change of a buffer. -/
theorem setBuffer (h : r.Consistent lists) {e : Revent} (he : r.mem.lookup p = some e)
    (buffer : List UInt8) :
    ({ r with mem := r.mem.insert p { e with buffer } } : Reactor).Consistent lists := by
  have hcases : ∀ q, (r.mem.insert p { e with buffer }).lookup q = r.mem.lookup q ∨
      ∃ e₀, r.mem.lookup q = some e₀ ∧
        (r.mem.insert p { e with buffer }).lookup q = some { e₀ with buffer } := by
    intro q
    rw [Table.lookup_insert_eq]
    split_ifs with hq
    · subst hq
      exact .inr ⟨e, he, rfl⟩
    · exact .inl rfl
  constructor
  · intro fd
    refine (h.linked fd).congr (fun q _ => ?_) fun q _ => ?_
    · rcases hcases q with hq | ⟨e₀, hq, hq'⟩
      · rw [nextOf, nextOf, hq]
      · rw [nextOf, nextOf, hq, hq']
        rfl
    · rcases hcases q with hq | ⟨e₀, hq, hq'⟩
      · rw [prevOf, prevOf, hq]
      · rw [prevOf, prevOf, hq, hq']
        rfl
  · exact h.nodup
  · intro fd q hq
    obtain ⟨e₁, he₁, hnode⟩ := h.node fd q hq
    rcases hcases q with hq | ⟨e₀, hq, hq'⟩
    · exact ⟨e₁, hq.trans he₁, hnode⟩
    · cases hq.symm.trans he₁
      exact ⟨_, hq', hnode⟩
  · intro q e' he'
    rcases hcases q with hq | ⟨e₀, hq, hq'⟩
    · exact h.status q e' (hq.symm.trans he')
    · cases hq'.symm.trans he'
      exact h.status q e₀ hq
  · intro fd
    rw [h.registered fd, registration, registration, maskOf_congr]
    exact fun q _ => (eventsOf_setBuffer he buffer q).symm

theorem close (h : r.Consistent lists) {fd : ℕ} (hnone : r.events fd = none) :
    (r.close fd).Consistent lists := by
  refine ⟨h.linked, h.nodup, h.node, h.status, ?_⟩
  intro fd'
  show (r.epoll.erase fd).lookup fd' = _
  rw [Table.lookup_erase_eq]
  split_ifs with hfd'
  · subst hfd'
    have hhead := (h.linked fd').eq_head?
    rw [hnone] at hhead
    show none = registration r.mem (lists fd')
    rw [registration, ← hhead, Option.map_none]
  · exact h.registered fd'

/-- A new node is in no list. -/
theorem ne_fresh (h : r.Consistent lists) (malloc : Allocator Revent) {fd : ℕ} (hp : p ∈ lists fd) :
    p ≠ malloc.fresh r.mem := by
  rintro rfl
  have := h.isSome hp
  rw [malloc.fresh_free r.mem] at this
  cases this

/-- A new node is allocated and added. -/
theorem addNew (h : r.Consistent lists) (malloc : Allocator Revent) {fd event : ℕ}
    (hfd : fd < maxEpollEvents) (hevent : event = epollIn ∨ event = epollOut) (length : ℕ)
    (callback : Callback) (buffer : List UInt8) :
    ∃ r', r.addNew malloc fd event length callback buffer = some (true, r') ∧
      r'.Consistent (Function.update lists fd (malloc.fresh r.mem :: lists fd)) ∧
      ∀ q, (r'.mem.lookup q).map data = if q = malloc.fresh r.mem then
        some (fd, event, callback, buffer, length) else (r.mem.lookup q).map data := by
  set p := malloc.fresh r.mem with hp
  have hnot : ∀ fd, p ∉ lists fd := fun fd' hmem => h.ne_fresh malloc hmem hp
  set ev : Revent := reventSet { zeroed with buffer } fd event length 0 callback with hev
  have hset : Consistent { r with mem := r.mem.insert p ev } lists := h.set hnot Nat.zero_ne_one
  obtain ⟨r', hr', h', hdata⟩ := hset.reventAdd hnot
    (by rw [Table.lookup_insert_eq, if_pos rfl]) rfl rfl rfl hfd hevent
  refine ⟨r', by simp [Reactor.addNew, ← hp, ← hev, hr'], h', ?_⟩
  intro q
  rw [hdata q, Table.lookup_insert_eq]
  split_ifs <;> rfl

end Consistent

/-! ## What is still to be sent -/

/-- The bytes of a node that waits for writing. -/
def bytesOf (mem : Memory Revent) (p : Addr) : Option (List UInt8) :=
  (mem.lookup p).bind fun e =>
    if e.events &&& epollOut ≠ 0 then some (e.buffer.takeD e.length 0) else none

/-- The bytes that stand in the events for writing of a list. -/
def outgoing (mem : Memory Revent) (l : List Addr) : List (List UInt8) :=
  l.filterMap (bytesOf mem)

theorem bytesOf_congr (h : (mem'.lookup p).map data = (mem.lookup p).map data) :
    bytesOf mem' p = bytesOf mem p := by
  have hbytes : ∀ mem : Memory Revent, bytesOf mem p = ((mem.lookup p).map data).bind fun d =>
      if d.2.1 &&& epollOut ≠ 0 then some (d.2.2.2.1.takeD d.2.2.2.2 0) else none := by
    intro mem
    rw [Option.bind_map]
    rfl
  rw [hbytes, hbytes, h]

theorem bytesOf_eq {fd events length : ℕ} {callback : Callback} {buffer : List UInt8}
    (h : (mem.lookup p).map data = some (fd, events, callback, buffer, length)) :
    bytesOf mem p = if events &&& epollOut ≠ 0 then some (buffer.takeD length 0) else none := by
  obtain ⟨e, he, hdata⟩ := Option.map_eq_some_iff.mp h
  cases hdata
  rw [bytesOf, he]
  rfl

theorem bytesOf_eq_none (h : eventsOf mem p &&& epollOut = 0) : bytesOf mem p = none := by
  unfold bytesOf eventsOf at *
  cases hp : mem.lookup p with
  | none => rfl
  | some e =>
    rw [hp] at h
    exact if_neg (not_not.mpr h)

theorem outgoing_congr {l : List Addr}
    (h : ∀ p ∈ l, (mem'.lookup p).map data = (mem.lookup p).map data) :
    outgoing mem' l = outgoing mem l :=
  List.filterMap_congr fun p hp => bytesOf_congr (h p hp)

/-- If at most one event waits for writing, then it is the only one with bytes. -/
theorem outgoing_erase {l : List Addr} {bytes : List UInt8} (hp : p ∈ l)
    (hbytes : bytesOf mem p = some bytes) (hlen : (outgoing mem l).length ≤ 1) :
    outgoing mem l = [bytes] ∧ outgoing mem (l.erase p) = [] := by
  have hperm : (outgoing mem l).Perm (bytes :: outgoing mem (l.erase p)) := by
    have := (List.perm_cons_erase hp).filterMap (bytesOf mem)
    rwa [List.filterMap_cons_some hbytes] at this
  have hrest : outgoing mem (l.erase p) = [] := by
    rw [hperm.length_eq, List.length_cons] at hlen
    exact List.eq_nil_of_length_eq_zero (by omega)
  rw [hrest] at hperm
  exact ⟨List.perm_singleton.mp hperm, hrest⟩

end CodeTest.Reactor

namespace CodeTest.EchoServer

open Reactor

/-- After its first NUL byte a chunk has only NUL bytes. -/
def NulTerminated (chunk : List UInt8) : Prop := ∀ b ∈ chunk.dropWhile (· ≠ 0), b = 0

instance (chunk : List UInt8) : Decidable (NulTerminated chunk) :=
  inferInstanceAs (Decidable (∀ b ∈ _, _))

/-- Such a chunk is what is sent back for it. -/
theorem NulTerminated.takeD_cString {chunk : List UInt8} (h : NulTerminated chunk)
    (rest : List UInt8) : (cString (chunk ++ 0 :: rest)).takeD chunk.length 0 = chunk := by
  induction chunk with
  | nil => rfl
  | cons b chunk ih =>
    by_cases hb : b = 0
    · -- all bytes are NUL
      subst hb
      have hall : ∀ b ∈ (0 : UInt8) :: chunk, b = 0 := by simpa [NulTerminated] using h
      have hstring : cString (0 :: chunk ++ 0 :: rest) = [] := by simp [cString]
      rw [hstring, List.takeD_nil]
      exact (List.eq_replicate_of_mem hall).symm
    · have hrest : NulTerminated chunk := by simpa [NulTerminated, hb] using h
      have hstring : cString (b :: chunk ++ 0 :: rest) = b :: cString (chunk ++ 0 :: rest) := by
        simp [cString, hb]
      rw [hstring, List.length_cons, List.takeD_succ, List.tail_cons, ih hrest]
      rfl

/-- The events for writing of a descriptor. -/
def writers (s : EchoServer) (fd : ℕ) : List Addr :=
  (follow s.reactor.mem s.reactor.mem.keys.length (s.reactor.events fd)).filter fun p =>
    eventsOf s.reactor.mem p &&& epollOut ≠ 0

/-- The length of the event that is handled when a descriptor is writable. -/
def writeLength (s : EchoServer) (fd : ℕ) : Option ℕ :=
  (s.writers fd).head?.bind fun p => (s.reactor.mem.lookup p).map Revent.length

/-- New clients have descriptors that are not in use, chunks have between 1 and 4095 bytes, and
`send` takes at least one and at most all bytes. -/
def Regular (s : EchoServer) : Event → Prop
  | .accept cliFd => cliFd < maxEpollEvents ∧ s.reactor.events cliFd = none
  | .readable _ (.data chunk) => 1 ≤ chunk.length ∧ chunk.length < maxBufferSize
  | .readable _ _ => False
  | .writable fd (.sent n) => 1 ≤ n ∧ ∀ length ∈ s.writeLength fd, n ≤ length
  | .writable _ _ => False

/-- Bytes are received when nothing waits to be sent, and have no NUL byte before another byte, and
`send` takes all bytes. -/
def Orderly (s : EchoServer) : Event → Prop
  | .readable fd (.data chunk) => s.writers fd = [] ∧ NulTerminated chunk
  | .writable fd (.sent n) => ∀ length ∈ s.writeLength fd, n = length
  | _ => True

instance (s : EchoServer) : ∀ e, Decidable (s.Regular e)
  | .accept _ => inferInstanceAs (Decidable (_ ∧ _))
  | .readable _ (.data _) => inferInstanceAs (Decidable (_ ∧ _))
  | .readable _ .again => isFalse id
  | .readable _ .failed => isFalse id
  | .writable fd (.sent n) => inferInstanceAs (Decidable (1 ≤ n ∧ ∀ length ∈ s.writeLength fd, _))
  | .writable _ .epipe => isFalse id
  | .writable _ .failed => isFalse id

instance (s : EchoServer) : ∀ e, Decidable (s.Orderly e)
  | .accept _ => isTrue trivial
  | .readable _ (.data _) => inferInstanceAs (Decidable (_ ∧ _))
  | .readable _ .again => isTrue trivial
  | .readable _ .failed => isTrue trivial
  | .writable fd (.sent n) => inferInstanceAs (Decidable (∀ length ∈ s.writeLength fd, n = length))
  | .writable _ .epipe => isTrue trivial
  | .writable _ .failed => isTrue trivial

/-- The invariant: for every descriptor at most one event waits for writing, and what was sent,
followed by the bytes in it, is what was received. -/
structure Echoes (s : EchoServer) (lists : ℕ → List Addr) : Prop where
  consistent : s.reactor.Consistent lists
  single : ∀ fd, (outgoing s.reactor.mem (lists fd)).length ≤ 1
  balance : ∀ fd, s.sent fd ++ (outgoing s.reactor.mem (lists fd)).flatten = s.received fd

namespace Echoes

variable {s s' : EchoServer} {lists : ℕ → List Addr} {malloc : Allocator Revent}

/-- The lists of the other descriptors are not affected by a change of one list. -/
theorem of_update (h : s.Echoes lists) {fd : ℕ} {l : List Addr}
    (hconsistent : s'.reactor.Consistent (Function.update lists fd l))
    (hother : ∀ fd' ≠ fd, (∀ p ∈ lists fd', (s'.reactor.mem.lookup p).map data =
      (s.reactor.mem.lookup p).map data) ∧ s'.sent fd' = s.sent fd' ∧
        s'.received fd' = s.received fd')
    (hsingle : (outgoing s'.reactor.mem l).length ≤ 1)
    (hbalance : s'.sent fd ++ (outgoing s'.reactor.mem l).flatten = s'.received fd) :
    s'.Echoes (Function.update lists fd l) := by
  refine ⟨hconsistent, ?_, ?_⟩
  · intro fd'
    by_cases hfd' : fd' = fd
    · subst hfd'
      rwa [Function.update_self]
    · rw [Function.update_of_ne hfd', outgoing_congr (hother fd' hfd').1]
      exact h.single fd'
  · intro fd'
    by_cases hfd' : fd' = fd
    · subst hfd'
      rwa [Function.update_self]
    · rw [Function.update_of_ne hfd', outgoing_congr (hother fd' hfd').1, (hother fd' hfd').2.1,
        (hother fd' hfd').2.2]
      exact h.balance fd'

theorem writers_eq (h : s.Echoes lists) (fd : ℕ) : s.writers fd =
    (lists fd).filter fun p => eventsOf s.reactor.mem p &&& epollOut ≠ 0 := by
  rw [writers, h.consistent.follow_eq]

/-- When nothing waits to be sent, no node waits for writing. -/
theorem events_of_writers_eq_nil (h : s.Echoes lists) {fd : ℕ} (hnone : s.writers fd = []) :
    ∀ q ∈ lists fd, eventsOf s.reactor.mem q &&& epollOut = 0 := by
  rw [h.writers_eq, List.filter_eq_nil_iff] at hnone
  intro q hq
  simpa using hnone q hq

theorem accept (h : s.Echoes lists) {cliFd : ℕ} (hok : s.Regular (.accept cliFd)) :
    ∃ s', s.step malloc (.accept cliFd) = some s' ∧ ∃ lists', s'.Echoes lists' := by
  obtain ⟨hfd, hnone⟩ := hok
  obtain ⟨r', hr', h', hdata⟩ := h.consistent.addNew malloc hfd (.inl rfl) 0 .recvCallback []
  have hlist : lists cliFd = [] := by
    have hhead := (h.consistent.linked cliFd).eq_head?
    rw [hnone] at hhead
    exact List.head?_eq_none_iff.mp hhead.symm
  have hbytes : outgoing r'.mem (malloc.fresh s.reactor.mem :: lists cliFd) = [] := by
    have hnew := bytesOf_eq ((hdata _).trans (if_pos rfl))
    rw [hlist, outgoing, List.filterMap_cons_none hnew, List.filterMap_nil]
  refine ⟨⟨r', Function.update s.received cliFd [], Function.update s.sent cliFd []⟩,
    by simp [step, acceptCallback, hr'], _, h.of_update h' ?_ ?_ ?_⟩
  · intro fd' hfd'
    refine ⟨fun p hp => ?_, Function.update_of_ne hfd' _ _, Function.update_of_ne hfd' _ _⟩
    rw [hdata p, if_neg (h.consistent.ne_fresh malloc hp)]
  · rw [hbytes]
    exact Nat.zero_le 1
  · simp [hbytes]

/-- The node that is found for an event of a mask. -/
theorem exists_found (h : s.Echoes lists) {fd mask : ℕ} {ev : Addr}
    (hfind : (lists fd).find? (fun q => eventsOf s.reactor.mem q &&& mask ≠ 0) = some ev) :
    ev ∈ lists fd ∧ ∃ e, s.reactor.mem.lookup ev = some e ∧ e.fd = fd ∧ fd < maxEpollEvents ∧
      (e.events = epollIn ∨ e.events = epollOut) ∧ e.events &&& mask ≠ 0 := by
  have hmem := List.mem_of_find?_eq_some hfind
  obtain ⟨e, he, hfd, hlt, hevents⟩ := h.consistent.node fd ev hmem
  refine ⟨hmem, e, he, hfd, hlt, hevents, ?_⟩
  have hmask := List.find?_some hfind
  simpa [eventsOf, he] using hmask

theorem readable (h : s.Echoes lists) {fd : ℕ} {chunk : List UInt8}
    (hok : s.Regular (.readable fd (.data chunk)))
    (horder : s.Orderly (.readable fd (.data chunk))) :
    ∃ s', s.step malloc (.readable fd (.data chunk)) = some s' ∧ ∃ lists', s'.Echoes lists' := by
  have hfound := h.consistent.findEvent_eq fd epollIn
  cases hfind : (lists fd).find? fun q => eventsOf s.reactor.mem q &&& epollIn ≠ 0 with
  | none =>
    rw [hfind] at hfound
    exact ⟨s, by simp [step, hfound], lists, h⟩
  | some ev =>
    rw [hfind] at hfound
    obtain ⟨hmem, e, he, rfl, hfd, hevents, hmask⟩ := h.exists_found hfind
    obtain ⟨hnone, hnul⟩ := horder
    have hnowrite := h.events_of_writers_eq_nil hnone
    have houtgoing : outgoing s.reactor.mem (lists e.fd) = [] :=
      List.filterMap_eq_nil_iff.mpr fun q hq => bytesOf_eq_none (hnowrite q hq)
    -- the buffer of the reading event changes, which has no bytes to be sent
    set buffer := chunk ++ 0 :: e.buffer.drop (chunk.length + 1) with hbuffer
    set mem₁ : Memory Revent := s.reactor.mem.insert ev { e with buffer } with hmem₁
    have hev₁ : mem₁.lookup ev = some { e with buffer } := by
      rw [hmem₁, Table.lookup_insert_eq, if_pos rfl]
    have h₁ : Consistent { s.reactor with mem := mem₁ } lists :=
      h.consistent.setBuffer he buffer
    obtain ⟨r', hr', h', hdata⟩ := h₁.addNew malloc hfd (.inr rfl) chunk.length .sendCallback
      (cString buffer)
    have hnew : outgoing r'.mem (malloc.fresh mem₁ :: lists e.fd) = [chunk] := by
      have hbytes : bytesOf r'.mem (malloc.fresh mem₁) = some chunk := by
        rw [bytesOf_eq ((hdata _).trans (if_pos rfl)), if_pos (by decide), hbuffer,
          hnul.takeD_cString]
      have hrest : outgoing r'.mem (lists e.fd) = [] := by
        refine List.filterMap_eq_nil_iff.mpr fun q hq => ?_
        rw [bytesOf_congr ((hdata q).trans (if_neg (h₁.ne_fresh malloc hq)))]
        exact bytesOf_eq_none ((eventsOf_setBuffer he buffer q).symm ▸ hnowrite q hq)
      rw [outgoing, List.filterMap_cons_some hbytes, ← outgoing, hrest]
    have hbalance := h.balance e.fd
    rw [houtgoing, List.flatten_nil, List.append_nil] at hbalance
    refine ⟨⟨r', Function.update s.received e.fd (s.received e.fd ++ chunk), s.sent⟩, ?_, _,
      h.of_update h' ?_ ?_ ?_⟩
    · have hlen : ¬ maxBufferSize ≤ chunk.length := not_le.mpr hok.2
      simp [step, hfound, recvCallback, hlen, Memory.write_eq he, ← hbuffer, ← hmem₁, hev₁, hr']
    · intro fd' hfd'
      refine ⟨fun q hq => ?_, rfl, Function.update_of_ne hfd' _ _⟩
      have hqev : q ≠ ev := by
        rintro rfl
        exact hfd' (h.consistent.fd_unique hq hmem)
      rw [hdata q, if_neg (h₁.ne_fresh malloc hq)]
      show (mem₁.lookup q).map data = _
      rw [hmem₁, Table.lookup_insert_eq, if_neg hqev]
    · rw [hnew]
      exact le_refl 1
    · show s.sent e.fd ++ _ = Function.update s.received e.fd _ e.fd
      rw [hnew, Function.update_self, hbalance]
      simp

theorem writable (h : s.Echoes lists) {fd n : ℕ}
    (horder : s.Orderly (.writable fd (.sent n))) :
    ∃ s', s.step malloc (.writable fd (.sent n)) = some s' ∧ ∃ lists', s'.Echoes lists' := by
  have hfound := h.consistent.findEvent_eq fd epollOut
  cases hfind : (lists fd).find? fun q => eventsOf s.reactor.mem q &&& epollOut ≠ 0 with
  | none =>
    rw [hfind] at hfound
    exact ⟨s, by simp [step, hfound], lists, h⟩
  | some ev =>
    rw [hfind] at hfound
    obtain ⟨hmem, e, he, rfl, hfd, hevents, hmask⟩ := h.exists_found hfind
    have hlength : s.writeLength e.fd = some e.length := by
      rw [writeLength, h.writers_eq, List.head?_filter, hfind]
      simp [he]
    obtain rfl : n = e.length := horder _ hlength
    have hstatus : e.status = 1 := (h.consistent.status ev e he).mpr hmem
    obtain ⟨r', hr', h', hdata⟩ := h.consistent.reventDel he hstatus
    have hbytes : bytesOf s.reactor.mem ev = some (e.buffer.takeD e.length 0) := by
      rw [bytesOf, he]
      exact if_pos hmask
    obtain ⟨hsingle, hrest⟩ := outgoing_erase hmem hbytes (h.single e.fd)
    have hfree := h'.free (h.consistent.not_mem_erase hmem)
    set s₁ : EchoServer := ⟨{ r' with mem := r'.mem.erase ev }, s.received,
      Function.update s.sent e.fd (s.sent e.fd ++ e.buffer.takeD e.length 0)⟩ with hs₁
    have hdata₁ : ∀ q ≠ ev, (s₁.reactor.mem.lookup q).map data =
        (s.reactor.mem.lookup q).map data := by
      intro q hq
      rw [← hdata q, hs₁]
      exact congrArg (Option.map data) ((Table.lookup_erase_eq _ _ _).trans (if_neg hq))
    have houtgoing₁ : outgoing s₁.reactor.mem ((lists e.fd).erase ev) = [] := by
      rw [outgoing_congr, hrest]
      intro q hq
      apply hdata₁
      rintro rfl
      exact (h.consistent.nodup e.fd).not_mem_erase hq
    have h₁ : s₁.Echoes (Function.update lists e.fd ((lists e.fd).erase ev)) := by
      refine h.of_update hfree ?_ ?_ ?_
      · intro fd' hfd'
        refine ⟨fun q hq => hdata₁ q ?_, Function.update_of_ne hfd' _ _, rfl⟩
        rintro rfl
        exact hfd' (h.consistent.fd_unique hq hmem)
      · rw [houtgoing₁]
        exact Nat.zero_le 1
      · have hbalance := h.balance e.fd
        rw [hsingle] at hbalance
        show Function.update s.sent e.fd _ e.fd ++ _ = s.received e.fd
        rw [houtgoing₁, Function.update_self]
        simpa using hbalance
    by_cases hclosed : r'.events e.fd = none
    · refine ⟨{ s₁ with reactor := s₁.reactor.close e.fd }, ?_, _,
        h₁.consistent.close hclosed, h₁.single, h₁.balance⟩
      simp [step, hfound, sendCallback, he, hr', hs₁, hclosed]
    · refine ⟨s₁, ?_, _, h₁⟩
      simp [step, hfound, sendCallback, he, hr', hs₁, hclosed]

end Echoes

theorem echoes_init : init.Echoes fun _ => [] :=
  ⟨consistent_init, fun _ => Nat.zero_le 1, fun _ => rfl⟩

/-- **The echo is in order**: in every run in which bytes are received only when nothing waits to be
sent for their descriptor, without a NUL byte before another byte, and `send` takes all bytes, the
bytes sent for a descriptor are at the start of those received. -/
theorem sent_of_orderly (malloc : Allocator Revent) (es : List Event)
    (hregular : PartialMachine.Meets (step malloc) Regular init es)
    (horderly : PartialMachine.Meets (step malloc) Orderly init es) :
    ∃ s, es.foldlM (step malloc) init = some s ∧ ∀ fd, s.sent fd <+: s.received fd := by
  have hstep : ∀ (s : EchoServer) (e : Event), (∃ lists, s.Echoes lists) →
      s.Regular e ∧ s.Orderly e → ∃ s', s.step malloc e = some s' ∧ ∃ lists, s'.Echoes lists := by
    rintro s e ⟨lists, h⟩ ⟨hok, horder⟩
    cases e with
    | accept cliFd => exact h.accept hok
    | readable fd result =>
      cases result with
      | data chunk => exact h.readable hok horder
      | _ => exact hok.elim
    | writable fd result =>
      cases result with
      | sent n => exact h.writable horder
      | _ => exact hok.elim
  obtain ⟨s, hs, lists, h⟩ :=
    PartialMachine.exists_run hstep ⟨_, echoes_init⟩ (hregular.and horderly)
  exact ⟨s, hs, fun fd => ⟨_, h.balance fd⟩⟩

/-- Two chunks of a client, each sent back before the next is received. -/
theorem sent_alternating :
    ∃ s, [Event.accept 5, .readable 5 (.data [104, 105]), .writable 5 (.sent 2),
        .readable 5 (.data [33, 0]), .writable 5 (.sent 2)].foldlM (step (.above _)) init = some s ∧
      ∀ fd, s.sent fd <+: s.received fd :=
  sent_of_orderly (.above _) _ (by decide +kernel) (by decide +kernel)

/-- Two chunks are received before the descriptor is writable: the second is sent first. -/
theorem exists_reversed_echo :
    ¬ ∀ (malloc : Allocator Revent) (es : List Event) (s : EchoServer),
      PartialMachine.Meets (step malloc) Regular init es →
      es.foldlM (step malloc) init = some s → ∀ fd, s.sent fd <+: s.received fd := by
  intro h
  have := h (.above _) [.accept 5, .readable 5 (.data [65]), .readable 5 (.data [66]),
    .writable 5 (.sent 1)] _ (by decide +kernel) rfl 5
  exact absurd this (by decide +kernel)

end CodeTest.EchoServer
