import CodeTest.CppNet.Received

/-!
# When the peer is taken to have closed

A `readv` that returns 0 is taken by `Recv` for the end of the stream. The call also returns 0 when
it is given no room, so the first `readv` of a `Recv`, which asks for no memory beyond what is free,
must meet a block with room. `closed_of_run` says that it does in every reached state: no `readv` is
given an empty vector, and the peer is taken to have closed only when one has handed over nothing.
-/

namespace CodeTest.CppNet

namespace RWSocket

variable {s : RWSocket} {q : List UInt8} {rets : List Readv} {expandBuffLen : ℕ}
  {needExpend : Bool} {offSet : UInt32}

/-- The read buffer has a place for the next byte, or no block yet. -/
def HasRoom (s : RWSocket) : Prop :=
  Roomy s.readBuffer.bufferList s.readBuffer.bufferWrite

theorem HasRoom.of_eq {s' : RWSocket} (h : s.HasRoom) (heq : s'.readBuffer = s.readBuffer) :
    s'.HasRoom := by
  unfold HasRoom
  rw [heq]
  exact h

/-- A round of `Recv` asks for memory, or there is room without. -/
def Asks (s : RWSocket) (needExpend : Bool) (expandBuffLen : ℕ) : Prop :=
  0 < expand needExpend expandBuffLen ∨ s.HasRoom

theorem grow_pos {n : ℕ} (hn : 0 < n) (needExpend : Bool) : 0 < grow needExpend n := by
  unfold grow
  split_ifs <;> omega

/-- The lengths of the vectors that one `Recv` gives to its `readv`s, the last of them to the call
that it waits for when the answers end. -/
def recvVectors : List Readv → RWSocket → ℕ → Bool → List ℕ
  | [], s, expandBuffLen, needExpend =>
    [vecLength (s.readBuffer.getFreeMemoryBlock (expand needExpend expandBuffLen)).1]
  | ret :: rets, s, expandBuffLen, needExpend =>
    let (ioVec, q) := s.readBuffer.getFreeMemoryBlock (expand needExpend expandBuffLen)
    let buffLen := vecLength ioVec
    match ret with
    | .again | .error _ => [buffLen]
    | .data bytes _ =>
      let bytes := bytes.take buffLen
      if bytes.length = 0 ∨ bytes.length < buffLen then [buffLen]
      else
        let s := { s with
          readBuffer := ((q.readv ioVec bytes).moveWritePt bytes.length).2
          received := s.received ++ bytes }
        buffLen :: recvVectors rets s (grow needExpend expandBuffLen) true

/-- No `readv` of a `Recv` is given an empty vector. -/
theorem recvVectors_pos (h : QueueStores s.readBuffer q) (hasks : s.Asks needExpend expandBuffLen)
    (hlen : 0 < expandBuffLen) : ∀ n ∈ recvVectors rets s expandBuffLen needExpend, 0 < n := by
  have hpos := h.vecLength_pos hasks
  induction rets generalizing s q expandBuffLen needExpend with
  | nil => simpa only [recvVectors, List.forall_mem_singleton] using hpos
  | cons ret rets ih =>
    cases ret with
    | again => simpa only [recvVectors, List.forall_mem_singleton] using hpos
    | error ctl => simpa only [recvVectors, List.forall_mem_singleton] using hpos
    | data bytes ctl =>
      simp only [recvVectors]
      split_ifs
      · simpa only [List.forall_mem_singleton] using hpos
      · have hasks' : (s.filled (expand needExpend expandBuffLen)
            (s.handed (expand needExpend expandBuffLen) bytes)).Asks true
            (grow needExpend expandBuffLen) :=
          Or.inl (show 0 < expand true _ from grow_pos hlen needExpend)
        have hstores := handed_stores h (expand needExpend expandBuffLen) bytes
        refine List.forall_mem_cons.mpr ⟨hpos, ?_⟩
        exact ih hstores hasks' (grow_pos hlen needExpend) (hstores.vecLength_pos hasks')

/-- A `Recv` that returns leaves room behind, and reports the end of the stream only when a `readv`
with room has handed over nothing. -/
theorem recvLoop_room (h : QueueStores s.readBuffer q) (hasks : s.Asks needExpend expandBuffLen)
    (hlen : 0 < expandBuffLen) (hret : (recvLoop rets s expandBuffLen needExpend offSet).1 ≠ none) :
    (recvLoop rets s expandBuffLen needExpend offSet).2.HasRoom ∧
      ((recvLoop rets s expandBuffLen needExpend offSet).2.callbacks =
        s.callbacks ++ [.onDisConnect .closed] → ∃ ctl, .data [] ctl ∈ rets) := by
  induction rets generalizing s q expandBuffLen needExpend offSet with
  | nil => exact absurd rfl hret
  | cons ret rets ih =>
    have hpos := h.vecLength_pos hasks
    have hstores := (h.getFreeMemoryBlock (expand needExpend expandBuffLen)).1
    have hroom := h.getFreeMemoryBlock_roomy hpos
    cases ret with
    | again =>
      have hback := hstores.moveWritePt_back_roomy one_pos
      rw [Nat.cast_one] at hback
      refine ⟨by simpa only [recvLoop, tell, HasRoom] using hback, fun hcall => ?_⟩
      simp [recvLoop, tell] at hcall
    | error ctl =>
      refine ⟨HasRoom.of_eq (s := { s with readBuffer := (s.readBuffer.getFreeMemoryBlock
        (expand needExpend expandBuffLen)).2 }) hroom (by simp [recvLoop]), fun hcall => ?_⟩
      simp only [recvLoop, onDisConnect, tell] at hcall
      split_ifs at hcall <;> simp at hcall
    | data bytes ctl =>
      by_cases hnil : s.handed (expand needExpend expandBuffLen) bytes = []
      · rw [recvLoop_end hnil]
        refine ⟨HasRoom.of_eq (s := { s with readBuffer := (s.readBuffer.getFreeMemoryBlock
          (expand needExpend expandBuffLen)).2 }) hroom (by simp), fun _ => ?_⟩
        rw [handed, List.take_eq_nil_iff] at hnil
        obtain rfl := hnil.resolve_left hpos.ne'
        exact ⟨ctl, List.mem_cons_self⟩
      by_cases hshort : (s.handed (expand needExpend expandBuffLen) bytes).length <
          vecLength (s.readBuffer.getFreeMemoryBlock (expand needExpend expandBuffLen)).1
      · rw [recvLoop_short hnil hshort]
        refine ⟨h.fill_roomy hshort, fun hcall => ?_⟩
        simp [tell, filled] at hcall
      · rw [recvLoop_full hnil hshort] at hret ⊢
        obtain ⟨hroom', hclosed⟩ := ih (handed_stores h _ bytes)
          (Or.inl (show 0 < expand true _ from grow_pos hlen needExpend))
          (grow_pos hlen needExpend) hret
        refine ⟨hroom', fun hcall => ?_⟩
        obtain ⟨ctl, hctl⟩ := hclosed hcall
        exact ⟨ctl, List.mem_cons_of_mem _ hctl⟩

end RWSocket

namespace Stream

variable {s : Stream} {e : SocketEvent}

/-- The read buffer is sound and has room. -/
def Open (s : Stream) : Prop := (∃ q, QueueStores s.sock.readBuffer q) ∧ s.sock.HasRoom

theorem Open.step (h : s.Open) (he : s.Answered e) : (Stream.step s e).2.Open := by
  obtain ⟨⟨q, hq⟩, hroom⟩ := h
  obtain ⟨_, _, q', -, ⟨hq', -⟩, -⟩ := reads_step hq he
  refine ⟨⟨q', hq'⟩, ?_⟩
  cases e with
  | write src ctl rets => exact hroom.of_eq (RWSocket.write_frame s.sock src ctl rets).1
  | onWrite rets => exact hroom.of_eq (RWSocket.sendLoop_frame rets s.sock 0).1
  | hangUp ctl => exact hroom.of_eq (by simp [Stream.step])
  | read len => exact hq.read_roomy len hroom
  | onRead rets => exact (RWSocket.recvLoop_room hq (Or.inr hroom) (by decide) he.1).1

/-- **The peer is taken to have closed only when it has.** After every run from a fresh socket whose
`Recv`s return, no `Recv` gives a `readv` an empty vector, and a `Recv` that reports the end of the
stream has got a `readv` that had bytes neither left nor arriving. -/
theorem closed_of_run {N : ℕ} (hN : 0 < N) (junk junk' : ℕ → ℤ → UInt8) (es : List SocketEvent)
    (hes : Machine.Along step Answered (Stream.new N junk junk') es) (rets : List Readv) :
    let s := (Machine.run step (Stream.new N junk junk') es).sock
    (∀ n ∈ RWSocket.recvVectors rets s linuxReadBuffExpandLen false, 0 < n) ∧
      ((s.onRead rets).1 ≠ none →
        (s.onRead rets).2.callbacks = s.callbacks ++ [.onDisConnect .closed] →
        ∃ ctl, .data [] ctl ∈ rets) := by
  have hnew : (Stream.new N junk junk').Open := ⟨⟨[], .new hN junk'⟩, fun t ht => nomatch ht⟩
  have hstep : ∀ s e, Open s → Answered s e → Open (step s e).2 := fun _ _ h he => h.step he
  obtain ⟨⟨q, hq⟩, hroom⟩ := Machine.run_invariant hstep hnew hes
  intro s
  refine ⟨RWSocket.recvVectors_pos hq (Or.inr hroom) (by decide), fun hret => ?_⟩
  exact (RWSocket.recvLoop_room hq (Or.inr hroom) (by decide) hret).2

/-- A block of four with three bytes in it, and the end of the stream. -/
theorem closed_of_run_three :
    ∃ ctl, .data [] ctl ∈ [Readv.data [] true] :=
  (closed_of_run (show 0 < 4 by decide) (fun _ _ => 0) (fun _ _ => 0)
    [.onRead [.data [1, 2, 3] true]] (by decide +kernel) [.data [] true]).2 (by decide +kernel)
    (by decide +kernel)

end Stream

end CodeTest.CppNet
