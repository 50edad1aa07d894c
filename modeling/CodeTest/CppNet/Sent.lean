import CodeTest.CppNet.QueueFifo
import CodeTest.CppNet.RWSocket

/-!
# Sending on a socket of the epoll engine

A stream is a socket with the payloads that `Write` has put into the write buffer and the bytes that
the application has read. `Write` puts its payload there unless more than `__max_write_cache` bytes
are waiting, whatever it returns: for a socket that waits for `EPOLLOUT` already it returns false.
`sent_append_stored` says that the bytes the kernel has taken, followed by those in the write
buffer, are these payloads in order, in every run and however the `writev`s divide them up.
`armed_of_run` says that bytes never stay behind: as long as the socket is open, either the write
buffer is empty or the kernel will report `EPOLLOUT`.
-/

namespace CodeTest.CppNet

/-- What happens to a socket: a `Write`, an `EPOLLOUT` or an `EPOLLIN` event, a `Read` of the
application from the read buffer, or an `EPOLLRDHUP` or `EPOLLHUP` event. -/
inductive SocketEvent
  | write (src : List UInt8) (ctl : Bool) (rets : List Writev)
  | onWrite (rets : List Writev)
  | onRead (rets : List Readv)
  | read (len : ℕ)
  | hangUp (ctl : Bool)
  deriving DecidableEq

/-- A socket, the payloads put into its write buffer, and the bytes the application has read. -/
structure Stream where
  sock : RWSocket
  taken : List UInt8
  got : List UInt8

namespace Stream

def new (blockLength : ℕ) (junk junk' : ℕ → ℤ → UInt8) : Stream :=
  { sock := .new blockLength junk junk', taken := [], got := [] }

/-- More bytes are waiting than `Write` allows. -/
def Crowded (s : Stream) : Prop := s.sock.writeBuffer.canReadLength.toNat > maxWriteCache

instance (s : Stream) : Decidable s.Crowded :=
  inferInstanceAs (Decidable (s.sock.writeBuffer.canReadLength.toNat > maxWriteCache))

/-- One event. The answer is the result of `Write`, `Send` or `Recv`. -/
def step : Machine Stream SocketEvent (Option Bool)
  | s, .write src ctl rets =>
    ((s.sock.write src ctl rets).1, { s with
      sock := (s.sock.write src ctl rets).2
      taken := if s.Crowded then s.taken else s.taken ++ src })
  | s, .onWrite rets => ((s.sock.onWrite rets).1, { s with sock := (s.sock.onWrite rets).2 })
  | s, .onRead rets => ((s.sock.onRead rets).1, { s with sock := (s.sock.onRead rets).2 })
  | s, .read len =>
    (none, { s with
      sock := { s.sock with readBuffer := (s.sock.readBuffer.read len).2 }
      got := s.got ++ (s.sock.readBuffer.read len).1 })
  | s, .hangUp ctl => (none, { s with sock := s.sock.onDisConnect .closed ctl })

end Stream

/-! ## What one call sends -/

namespace RWSocket

variable {s : RWSocket} {q : List UInt8}

@[simp] theorem addSendEvent_writeBuffer (s : RWSocket) (ctl : Bool) :
    (s.addSendEvent ctl).2.writeBuffer = s.writeBuffer := by
  simp only [addSendEvent]
  split_ifs <;> rfl

@[simp] theorem addSendEvent_sent (s : RWSocket) (ctl : Bool) :
    (s.addSendEvent ctl).2.sent = s.sent := by
  simp only [addSendEvent]
  split_ifs <;> rfl

@[simp] theorem onDisConnect_writeBuffer (s : RWSocket) (err : ErrorCode) (ctl : Bool) :
    (s.onDisConnect err ctl).writeBuffer = s.writeBuffer := by
  unfold onDisConnect tell
  split_ifs <;> rfl

@[simp] theorem onDisConnect_sent (s : RWSocket) (err : ErrorCode) (ctl : Bool) :
    (s.onDisConnect err ctl).sent = s.sent := by
  unfold onDisConnect tell
  split_ifs <;> rfl

@[simp] theorem onDisConnect_readBuffer (s : RWSocket) (err : ErrorCode) (ctl : Bool) :
    (s.onDisConnect err ctl).readBuffer = s.readBuffer := by
  unfold onDisConnect tell
  split_ifs <;> rfl

@[simp] theorem onDisConnect_received (s : RWSocket) (err : ErrorCode) (ctl : Bool) :
    (s.onDisConnect err ctl).received = s.received := by
  unfold onDisConnect tell
  split_ifs <;> rfl

@[simp] theorem onDisConnect_shutdown (s : RWSocket) (err : ErrorCode) (ctl : Bool) :
    (s.onDisConnect err ctl).shutdown = true := rfl

/-- What `Send` moves from the write buffer to the kernel is the oldest bytes, in order. -/
theorem sendLoop_spec (h : QueueHolds s.writeBuffer q) (rets : List Writev) (offSet : ℕ) :
    ∃ q', QueueHolds (sendLoop rets s offSet).2.writeBuffer q' ∧
      (sendLoop rets s offSet).2.sent ++ q' = s.sent ++ q := by
  induction rets generalizing s q offSet with
  | nil =>
    unfold sendLoop
    split_ifs
    · exact ⟨q, h, rfl⟩
    · exact ⟨q, h, rfl⟩
  | cons ret rets ih =>
    unfold sendLoop
    split_ifs with hcount
    · cases ret with
      | room n =>
        simp only
        set bytes := (gather s.writeBuffer.bufferList
          (s.writeBuffer.getUseMemoryBlock linuxWriteBuffGet)).take n
        have hprefix : bytes <+: q :=
          (List.take_prefix _ _).trans (h.toQueueStores.getUseMemoryBlock _).1
        obtain ⟨q', hq', hsent⟩ := ih (s := { s with
          writeBuffer := (s.writeBuffer.moveReadPt bytes.length).2, sent := s.sent ++ bytes })
          (h.moveReadPt bytes.length).2 (offSet + bytes.length)
        refine ⟨q', hq', hsent.trans ?_⟩
        obtain ⟨rest, rfl⟩ := hprefix
        rw [List.drop_left, List.append_assoc]
      | again ctl => exact ⟨q, by simpa using h, by simp⟩
      | badMsg ctl => exact ⟨q, by simpa using h, by simp⟩
      | error ctl => exact ⟨q, by simpa using h, by simp⟩
    · exact ⟨q, h, rfl⟩

theorem send_spec (h : QueueHolds s.writeBuffer q) (rets : List Writev) :
    ∃ q', QueueHolds (s.send rets).2.writeBuffer q' ∧ (s.send rets).2.sent ++ q' = s.sent ++ q :=
  sendLoop_spec h rets 0

/-- A `Write` to a socket that is not crowded puts its payload behind the bytes waiting. -/
theorem write_spec (h : QueueHolds s.writeBuffer q) (src : List UInt8) (ctl : Bool)
    (rets : List Writev) :
    ∃ q', QueueHolds (s.write src ctl rets).2.writeBuffer q' ∧
      (s.write src ctl rets).2.sent ++ q' = s.sent ++
        (if s.writeBuffer.canReadLength.toNat > maxWriteCache then q else q ++ src) := by
  have hwrite := (h.write src).2
  unfold write
  split_ifs with hcount hcrowded hcrowded
  · exact ⟨q, h, rfl⟩
  · exact ⟨q ++ src, by simpa using hwrite, by simp⟩
  · exact absurd hcrowded (by unfold maxWriteCache; omega)
  · exact send_spec (s := { s with writeBuffer := (s.writeBuffer.write src).2 }) hwrite rets

/-! ## The event registration -/

/-- The type of the event, its mask and what the kernel has registered say the same. -/
def Consistent (s : RWSocket) : Prop := s.etWrite = s.epollout ∧ s.epollout = s.registered

/-- The socket is closed, or nothing waits to be sent, or the kernel reports when it can be. -/
def Armed (s : RWSocket) : Prop :=
  s.shutdown = true ∨ s.Consistent ∧
    ∃ q, QueueHolds s.writeBuffer q ∧ q.length < 2 ^ 32 ∧ (q = [] ∨ s.registered = true)

theorem Armed.stored (h : s.Armed) :
    s.shutdown = true ∨ storedList s.writeBuffer.bufferList = [] ∨ s.registered = true := by
  rcases h with h | ⟨-, q, hq, -, hwait⟩
  · exact Or.inl h
  · rw [hq.stored]
    exact Or.inr hwait

/-- After `AddSendEvent` with a successful `epoll_ctl` the kernel reports `EPOLLOUT`. -/
theorem Consistent.addSendEvent (h : s.Consistent) :
    (s.addSendEvent true).2.Consistent ∧ (s.addSendEvent true).2.registered = true := by
  obtain ⟨htype, hmask⟩ := h
  simp only [RWSocket.addSendEvent, Consistent]
  split_ifs with hwrite hout
  · exact ⟨⟨htype, hmask⟩, by rw [← hmask, ← htype, hwrite]⟩
  · rw [htype, hout] at hwrite
    exact absurd rfl hwrite
  · exact ⟨⟨rfl, rfl⟩, rfl⟩

theorem sendLoop_shutdown (hs : s.shutdown = true) (rets : List Writev) (offSet : ℕ) :
    (sendLoop rets s offSet).2.shutdown = true := by
  induction rets generalizing s offSet with
  | nil =>
    unfold sendLoop
    split_ifs <;> exact hs
  | cons ret rets ih =>
    unfold sendLoop
    split_ifs
    · cases ret with
      | room n =>
        refine ih ?_ _
        exact hs
      | again ctl =>
        simp only [RWSocket.addSendEvent]
        split_ifs <;> exact hs
      | badMsg ctl => rfl
      | error ctl => rfl
    · exact hs

/-- A `Send` that returns leaves the socket armed. -/
theorem sendLoop_armed (hs : s.Consistent) (h : QueueHolds s.writeBuffer q)
    (hlen : q.length < 2 ^ 32) {rets : List Writev} (hctl : .again false ∉ rets) (offSet : ℕ)
    (hret : (sendLoop rets s offSet).1 ≠ none) : (sendLoop rets s offSet).2.Armed := by
  induction rets generalizing s q offSet with
  | nil =>
    unfold sendLoop at hret ⊢
    split_ifs at hret ⊢ with hcount
    · exact absurd rfl hret
    · exact Or.inr ⟨hs, q, h, hlen, Or.inl (h.eq_nil hlen hcount)⟩
  | cons ret rets ih =>
    unfold sendLoop at hret ⊢
    split_ifs at hret ⊢ with hcount
    · cases ret with
      | room n =>
        simp only at hret ⊢
        set bytes := (gather s.writeBuffer.bufferList
          (s.writeBuffer.getUseMemoryBlock linuxWriteBuffGet)).take n
        refine ih ?_ (h.moveReadPt bytes.length).2 ?_ ?_ _ hret
        · exact hs
        · rw [List.length_drop]
          omega
        · exact fun hmem => hctl (List.mem_cons_of_mem _ hmem)
      | again ctl =>
        have hctl : ctl = true := by
          cases ctl with
          | false => exact absurd List.mem_cons_self hctl
          | true => rfl
        subst hctl
        obtain ⟨hcons, hreg⟩ := hs.addSendEvent
        exact Or.inr ⟨hcons, q, by simpa using h, hlen, Or.inr hreg⟩
      | badMsg ctl => exact Or.inl rfl
      | error ctl => exact Or.inl rfl
    · exact Or.inr ⟨hs, q, h, hlen, Or.inl (h.eq_nil hlen hcount)⟩

theorem Armed.of_eq {s' : RWSocket} (h : s.Armed) (hbuffer : s'.writeBuffer = s.writeBuffer)
    (hshut : s'.shutdown = s.shutdown) (htype : s'.etWrite = s.etWrite)
    (hmask : s'.epollout = s.epollout) (hreg : s'.registered = s.registered) : s'.Armed := by
  unfold Armed Consistent
  rw [hbuffer, hshut, htype, hmask, hreg]
  exact h

/-- Whatever is waiting, a `Send` that returns leaves the socket armed. -/
theorem send_armed (h : s.shutdown = true ∨ s.Consistent ∧
      ∃ q, QueueHolds s.writeBuffer q ∧ q.length < 2 ^ 32) {rets : List Writev}
    (hctl : .again false ∉ rets) (hret : (s.send rets).1 ≠ none) : (s.send rets).2.Armed := by
  rcases h with h | ⟨hcons, q, hq, hlen⟩
  · exact Or.inl (sendLoop_shutdown h rets 0)
  · exact sendLoop_armed hcons hq hlen hctl 0 hret

theorem Armed.write (h : s.Armed) {src : List UInt8} {ctl : Bool} {rets : List Writev}
    (he : src.length + maxWriteCache < 2 ^ 32 ∧ ctl = true ∧ .again false ∉ rets ∧
      (s.write src ctl rets).1 ≠ none) : (s.write src ctl rets).2.Armed := by
  obtain ⟨hsrc, rfl, hctl, hret⟩ := he
  unfold RWSocket.write at hret ⊢
  split_ifs at hret ⊢ with hcount hcrowded
  · exact h
  · -- something is waiting, so the payload joins it
    rcases h with h | ⟨hcons, q, hq, hlen, -⟩
    · left
      simp only [RWSocket.addSendEvent]
      split_ifs <;> exact h
    · obtain ⟨hcons', hreg⟩ := Consistent.addSendEvent
        (s := { s with writeBuffer := (s.writeBuffer.write src).2 }) hcons
      refine Or.inr ⟨hcons', q ++ src, by simpa using (hq.write src).2, ?_, Or.inr hreg⟩
      rw [hq.count, UInt32.toNat_ofNat'] at hcrowded
      rw [List.length_append]
      omega
  · refine send_armed (s := { s with writeBuffer := (s.writeBuffer.write src).2 }) ?_ hctl hret
    rcases h with h | ⟨hcons, q, hq, hlen, -⟩
    · exact Or.inl h
    · refine Or.inr ⟨hcons, q ++ src, (hq.write src).2, ?_⟩
      rw [hq.eq_nil hlen hcount, List.nil_append]
      omega

/-- Receiving leaves the sending side alone. -/
theorem recvLoop_frame (rets : List Readv) (s : RWSocket) (expandBuffLen : ℕ) (needExpend : Bool)
    (offSet : UInt32) :
    let s' := (recvLoop rets s expandBuffLen needExpend offSet).2
    s'.writeBuffer = s.writeBuffer ∧ s'.sent = s.sent ∧
      (s'.shutdown = true ∨ s'.shutdown = s.shutdown ∧ s'.etWrite = s.etWrite ∧
        s'.epollout = s.epollout ∧ s'.registered = s.registered) := by
  induction rets generalizing s expandBuffLen needExpend offSet with
  | nil => exact ⟨rfl, rfl, Or.inr ⟨rfl, rfl, rfl, rfl⟩⟩
  | cons ret rets ih =>
    unfold recvLoop
    cases ret with
    | again => exact ⟨rfl, rfl, Or.inr ⟨rfl, rfl, rfl, rfl⟩⟩
    | error ctl => exact ⟨by simp, by simp, Or.inl rfl⟩
    | data bytes ctl =>
      simp only
      split_ifs
      · exact ⟨by simp, by simp, Or.inl rfl⟩
      · exact ⟨rfl, rfl, Or.inr ⟨rfl, rfl, rfl, rfl⟩⟩
      · exact ih _ _ _ _

end RWSocket

namespace Stream

variable {s : Stream} {e : SocketEvent}

/-! ## Runs -/

/-- The bytes sent and those waiting are the payloads put into the write buffer, in order. -/
def Sent (s : Stream) : Prop :=
  ∃ q, QueueHolds s.sock.writeBuffer q ∧ s.sock.sent ++ q = s.taken

theorem Sent.step (h : s.Sent) (e : SocketEvent) : (Stream.step s e).2.Sent := by
  obtain ⟨q, hq, htaken⟩ := h
  cases e with
  | write src ctl rets =>
    obtain ⟨q', hq', hsent⟩ := RWSocket.write_spec hq src ctl rets
    refine ⟨q', hq', hsent.trans ?_⟩
    simp only [Stream.step]
    by_cases hcrowded : s.Crowded
    · have hcount : s.sock.writeBuffer.canReadLength.toNat > maxWriteCache := hcrowded
      rw [if_pos hcount, htaken, if_pos hcrowded]
    · have hcount : ¬ s.sock.writeBuffer.canReadLength.toNat > maxWriteCache := hcrowded
      rw [if_neg hcount, ← List.append_assoc, htaken, if_neg hcrowded]
  | onWrite rets =>
    obtain ⟨q', hq', hsent⟩ := RWSocket.send_spec hq rets
    exact ⟨q', hq', hsent.trans htaken⟩
  | onRead rets =>
    obtain ⟨hbuffer, hsent, -⟩ := RWSocket.recvLoop_frame rets s.sock linuxReadBuffExpandLen false 0
    refine ⟨q, ?_, ?_⟩
    · simpa only [Stream.step, RWSocket.onRead, hbuffer] using hq
    · simpa only [Stream.step, RWSocket.onRead, hsent] using htaken
  | read len => exact ⟨q, hq, htaken⟩
  | hangUp ctl => exact ⟨q, by simpa [Stream.step] using hq, by simpa [Stream.step] using htaken⟩

/-- **No byte is lost, doubled or overtaken on the way to the kernel.** In every run from a fresh
socket, however the kernel divides up what it is given, the bytes it has taken, followed by those in
the write buffer, are the payloads that `Write` has put there, in order, whatever it returned. -/
theorem sent_append_stored {N : ℕ} (hN : 0 < N) (junk junk' : ℕ → ℤ → UInt8)
    (es : List SocketEvent) :
    let s := Machine.run step (Stream.new N junk junk') es
    s.sock.sent ++ storedList s.sock.writeBuffer.bufferList = s.taken := by
  have hnew : (Stream.new N junk junk').Sent := ⟨[], .new hN junk, rfl⟩
  have hstep : ∀ s e, Sent s → True → Sent (step s e).2 := fun _ e h _ => h.step e
  obtain ⟨q, hq, htaken⟩ := Machine.run_invariant hstep hnew (Machine.along_true _ es)
  intro s
  rw [hq.stored]
  exact htaken

/-- A payload fits the 32-bit count of the write buffer, every `epoll_ctl` of `AddSendEvent`
succeeds, and the call returns. -/
def Regular (s : Stream) : SocketEvent → Prop
  | .write src ctl rets => src.length + maxWriteCache < 2 ^ 32 ∧ ctl = true ∧
      .again false ∉ rets ∧ (s.sock.write src ctl rets).1 ≠ none
  | .onWrite rets => .again false ∉ rets ∧ (s.sock.onWrite rets).1 ≠ none
  | _ => True

instance (s : Stream) : ∀ e, Decidable (Regular s e)
  | .write src ctl rets => inferInstanceAs (Decidable (src.length + maxWriteCache < 2 ^ 32 ∧
      ctl = true ∧ .again false ∉ rets ∧ (s.sock.write src ctl rets).1 ≠ none))
  | .onWrite rets => inferInstanceAs (Decidable
      (.again false ∉ rets ∧ (s.sock.onWrite rets).1 ≠ none))
  | .onRead _ | .read _ | .hangUp _ => inferInstanceAs (Decidable True)

theorem armed_step (h : s.sock.Armed) (he : s.Regular e) : (Stream.step s e).2.sock.Armed := by
  cases e with
  | write src ctl rets => exact h.write he
  | onWrite rets =>
    refine RWSocket.send_armed ?_ he.1 he.2
    exact h.imp_right fun ⟨hcons, q, hq, hlen, _⟩ => ⟨hcons, q, hq, hlen⟩
  | onRead rets =>
    obtain ⟨hbuffer, -, hflags⟩ :=
      RWSocket.recvLoop_frame rets s.sock linuxReadBuffExpandLen false 0
    rcases hflags with hclosed | ⟨hshut, htype, hmask, hreg⟩
    · exact Or.inl hclosed
    · exact h.of_eq hbuffer hshut htype hmask hreg
  | read len => exact h.of_eq rfl rfl rfl rfl rfl
  | hangUp ctl => exact Or.inl rfl

/-- **Bytes never stay behind.** In every run from a fresh socket whose events are regular, the
socket is closed, or the write buffer is empty, or the kernel will report when it has room. -/
theorem armed_of_run {N : ℕ} (hN : 0 < N) (junk junk' : ℕ → ℤ → UInt8) (es : List SocketEvent)
    (hes : Machine.Along step Regular (Stream.new N junk junk') es) :
    let s := (Machine.run step (Stream.new N junk junk') es).sock
    s.shutdown = true ∨ storedList s.writeBuffer.bufferList = [] ∨ s.registered = true := by
  have hnew : (Stream.new N junk junk').sock.Armed :=
    Or.inr ⟨⟨rfl, rfl⟩, [], .new hN junk, by decide, Or.inl rfl⟩
  have hstep : ∀ s e, s.sock.Armed → Regular s e → (step s e).2.sock.Armed :=
    fun _ _ h he => armed_step h he
  exact (Machine.run_invariant hstep hnew hes).stored

/-- With blocks of four bytes, two `Write`s of which the kernel takes six bytes in three calls. -/
theorem armed_of_run_four :
    let es : List SocketEvent := [.write [1, 2, 3, 4, 5] true [.room 2, .again true],
      .write [6, 7, 8] true [], .onWrite [.room 3, .room 1, .again true]]
    Machine.Along step Regular (Stream.new 4 (fun _ _ => 0) fun _ _ => 0) es ∧
      (let s := (Machine.run step (Stream.new 4 (fun _ _ => 0) fun _ _ => 0) es).sock
      s.shutdown = true ∨ storedList s.writeBuffer.bufferList = [] ∨ s.registered = true) :=
  ⟨by decide +kernel, armed_of_run (by decide) _ _ _ (by decide +kernel)⟩

/-- The first bytes go to the kernel in the order of the payloads. -/
theorem sent_append_stored_four :
    let s := Machine.run step (Stream.new 4 (fun _ _ => 0) fun _ _ => 0)
      [.write [1, 2, 3, 4, 5] true [.room 2, .again true], .write [6, 7, 8] true []]
    s.sock.sent ++ storedList s.sock.writeBuffer.bufferList = s.taken :=
  sent_append_stored (by decide) _ _ _

end Stream

end CodeTest.CppNet
