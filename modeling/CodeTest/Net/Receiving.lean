import CodeTest.Foundations.Machine
import CodeTest.Net.SocketUser
import CodeTest.Net.Stored

/-!
# Receiving on one connection

A peer sends messages as NUL-terminated strings, `recv` hands the stream to `Receive` in chunks, and
the application takes messages with `Read()`. `messages_received_iff` says for which ways of cutting
the stream the application gets the messages that were sent. `Receive` ends every chunk shorter than
the receive size with a NUL, whether or not the chunk ends at a border, so a message is split where
a short chunk ends inside it; and `Read()` takes an unfinished message for a whole one.

The sufficiency of the condition is an induction on the run, with the stored bytes followed by those
still to come as the frames of the messages still to be read. Its necessity is a count: every NUL
added and every unfinished message read makes one message too many.
-/

namespace CodeTest.Net

open Framing

namespace Connection

/-- A call of `Receive` on the chunks that `recv` returns before it answers `-1`, or `0` at the end
of the stream, or a call of `Read()`. -/
inductive RecvEvent
  | receive (chunks : List (List UInt8)) (eof : Bool) (ctl : ℤ)
  | read (beyond : List UInt8)
  deriving DecidableEq

/-- One event. The answer is the string that `Read()` returns. -/
def recvStep : Machine Connection RecvEvent (Option (List UInt8))
  | c, .receive chunks eof ctl =>
    (none, (c.receive ctl (chunks.map .data ++ [if eof then .eof else .error])).2)
  | c, .read beyond => (some (c.readString beyond).1, (c.readString beyond).2)

/-- The bytes that `recv` returns during the events. -/
def received : List RecvEvent → List UInt8
  | [] => []
  | .receive chunks _ _ :: es => chunks.flatten ++ received es
  | .read _ :: es => received es

/-- The strings that the `Read()`s of a run return. -/
def results (c : Connection) (es : List RecvEvent) : List (List UInt8) :=
  (Machine.outputs recvStep c es).filterMap id

/-- `Read()` repeated, at most `n` times, while bytes are stored. -/
def drain (beyond : List UInt8) : ℕ → Connection → List (List UInt8)
  | 0, _ => []
  | n + 1, c =>
    if c.user.recvBuffer.getReadableSize = 0 then []
    else (c.readString beyond).1 :: drain beyond n (c.readString beyond).2

/-- `Read()` repeated until no byte is stored. -/
def readMessages (c : Connection) (beyond : List UInt8) : List (List UInt8) :=
  c.drain beyond c.user.recvBuffer.getReadableSize.toNat

/-- The chunks are of the sizes `recv` returns, and what is written for them leaves room in the
receive buffer. `Read()` is called only while bytes are stored. -/
def WithRoom (c : Connection) : RecvEvent → Prop
  | .receive chunks _ _ =>
    (∀ chunk ∈ chunks, 1 ≤ chunk.length ∧ chunk.length ≤ maxReceiveOnceSize) ∧
      ((chunks.map terminate).flatten.length : ℤ) < c.user.recvBuffer.getWriteableSize
  | .read _ => 0 < c.user.recvBuffer.getReadableSize

/-- Every chunk shorter than the receive size ends in NUL, and `Read()` is called only when a NUL is
stored. -/
def Framed (c : Connection) : RecvEvent → Prop
  | .receive chunks _ _ =>
    ∀ chunk ∈ chunks, chunk.length < maxReceiveOnceSize → chunk.getLast? = some 0
  | .read _ => 0 ∈ c.user.recvBuffer.stored

instance (c : Connection) : ∀ e, Decidable (WithRoom c e)
  | .receive chunks _ _ => inferInstanceAs (Decidable
      ((∀ chunk ∈ chunks, 1 ≤ chunk.length ∧ chunk.length ≤ maxReceiveOnceSize) ∧
        ((chunks.map terminate).flatten.length : ℤ) < c.user.recvBuffer.getWriteableSize))
  | .read _ => inferInstanceAs (Decidable (0 < c.user.recvBuffer.getReadableSize))

instance (c : Connection) : ∀ e, Decidable (Framed c e)
  | .receive chunks _ _ => inferInstanceAs (Decidable
      (∀ chunk ∈ chunks, chunk.length < maxReceiveOnceSize → chunk.getLast? = some 0))
  | .read _ => inferInstanceAs (Decidable (0 ∈ c.user.recvBuffer.stored))

@[simp] theorem results_nil (c : Connection) : c.results [] = [] := rfl

@[simp] theorem results_receive (c : Connection) (chunks : List (List UInt8)) (eof : Bool) (ctl : ℤ)
    (es : List RecvEvent) : c.results (.receive chunks eof ctl :: es) =
      (recvStep c (.receive chunks eof ctl)).2.results es := rfl

@[simp] theorem results_read (c : Connection) (beyond : List UInt8) (es : List RecvEvent) :
    c.results (.read beyond :: es) =
      (c.readString beyond).1 :: (c.readString beyond).2.results es := rfl

/-! ## What is written for the chunks -/

theorem terminate_eq_self {chunk : List UInt8}
    (h : chunk.length < maxReceiveOnceSize → chunk.getLast? = some 0) :
    terminate chunk = chunk := by
  unfold terminate
  split_ifs with hshort hlast
  · exact absurd (h hshort) hlast
  · rfl
  · rfl

theorem count_terminate (chunk : List UInt8) :
    chunk.count 0 ≤ (terminate chunk).count 0 ∧
      (¬ (chunk.length < maxReceiveOnceSize → chunk.getLast? = some 0) →
        chunk.count 0 < (terminate chunk).count 0) := by
  unfold terminate
  split_ifs with hshort hlast
  · rw [List.count_append, List.count_singleton_self]
    exact ⟨Nat.le_succ _, fun _ => Nat.lt_succ_self _⟩
  · rw [not_not] at hlast
    exact ⟨le_rfl, fun h => absurd (fun _ => hlast) h⟩
  · exact ⟨le_rfl, fun h => absurd (fun h' => absurd h' hshort) h⟩

theorem flatten_map_terminate {chunks : List (List UInt8)}
    (h : ∀ chunk ∈ chunks, chunk.length < maxReceiveOnceSize → chunk.getLast? = some 0) :
    (chunks.map terminate).flatten = chunks.flatten := by
  rw [List.map_congr_left fun chunk hc => terminate_eq_self (h chunk hc), List.map_id']

/-- The NULs written for the chunks are at least those of the chunks, and more when a short chunk
does not end in NUL. -/
theorem count_flatten_terminate (chunks : List (List UInt8)) :
    chunks.flatten.count 0 ≤ (chunks.map terminate).flatten.count 0 ∧
      (¬ (∀ chunk ∈ chunks, chunk.length < maxReceiveOnceSize → chunk.getLast? = some 0) →
        chunks.flatten.count 0 < (chunks.map terminate).flatten.count 0) := by
  induction chunks with
  | nil => simp
  | cons chunk chunks ih =>
    obtain ⟨hle, hlt⟩ := count_terminate chunk
    obtain ⟨ihle, ihlt⟩ := ih
    simp only [List.map_cons, List.flatten_cons, List.count_append, List.forall_mem_cons]
    refine ⟨Nat.add_le_add hle ihle, fun h => ?_⟩
    rcases not_and_or.mp h with h | h
    · exact Nat.add_lt_add_of_lt_of_le (hlt h) ihle
    · exact Nat.add_lt_add_of_le_of_lt hle (ihlt h)

/-! ## One event -/

/-- The connection is registered and its receive buffer stores `q`. -/
def Stores (c : Connection) (q : List UInt8) : Prop :=
  c.registered = true ∧ Holds c.user.recvBuffer q

variable {c : Connection} {q : List UInt8}

/-- A call of `Receive` that has room stores, in order, what is written for its chunks. -/
theorem Stores.receive (h : c.Stores q) (ctl : ℤ) (last : RecvResult)
    (hlast : last = .eof ∨ last = .error) {chunks : List (List UInt8)}
    (hroom : q.length + (chunks.map terminate).flatten.length < c.user.recvBuffer.mallocRealSize) :
    (c.receive ctl (chunks.map .data ++ [last])).2.Stores
      (q ++ (chunks.map terminate).flatten) := by
  induction chunks generalizing c q with
  | nil =>
    rcases hlast with rfl | rfl
    · simpa [Connection.receive] using h
    · simpa [Connection.receive, Stores] using h
  | cons chunk chunks ih =>
    obtain ⟨hreg, hstored⟩ := h
    simp only [List.map_cons, List.flatten_cons, List.length_append] at hroom
    have hfit : q.length + (terminate chunk).length < c.user.recvBuffer.mallocRealSize := by omega
    obtain ⟨-, hnext, hN⟩ := hstored.write hfit
    have := ih (c := c.setRecvBuffer (c.user.recvBuffer.write (terminate chunk)).2)
      ⟨hreg, hnext⟩ (by
        simp only [setRecvBuffer, hN, List.length_append]
        omega)
    simpa [Connection.receive, hreg, List.append_assoc] using this

/-- `Read()` takes the first frame of the stored bytes. -/
theorem holds_readString (h : Holds c.user.recvBuffer q) (beyond : List UInt8) :
    Holds (c.readString beyond).2.user.recvBuffer (q.drop (frameSize 0 q)) := by
  obtain ⟨-, hnext, -⟩ := h.read (frameSize_le_length (d := 0) q)
  simpa only [Connection.readString, setRecvBuffer, h.getReadSize] using hnext

/-- `Read()` returns the first stored message, and takes it with its NUL. -/
theorem holds_readString_frame {m rest : List UInt8} (hm : 0 ∉ m)
    (h : Holds c.user.recvBuffer (m ++ 0 :: rest)) (beyond : List UInt8) :
    (c.readString beyond).1 = m ∧ Holds (c.readString beyond).2.user.recvBuffer rest := by
  have hsize := frameSize_frame hm rest
  have hnext := holds_readString h beyond
  have hdrop : (m ++ 0 :: rest).drop (m.length + 1) = rest := by simp
  rw [hsize, hdrop] at hnext
  refine ⟨?_, hnext⟩
  have hnonempty : c.user.recvBuffer.getReadableSize ≠ 0 := by
    rw [h.getReadableSize, List.length_append, List.length_cons]
    omega
  have hle : m.length + 1 ≤ (m ++ 0 :: rest).length := by simp
  have hout := (h.read hle).1
  have htake : (m ++ 0 :: rest).take (m.length + 1) = m ++ [0] := by simp [List.take_append]
  rw [htake] at hout
  obtain ⟨content, hcontent⟩ :
      ∃ content, (c.user.recvBuffer.read (m.length + 1)).1 = some content := by
    unfold CLoopBuffer.read
    rw [if_neg hnonempty]
    split_ifs <;> exact ⟨_, rfl⟩
  rw [hcontent, Option.getD_some] at hout
  simp only [Connection.readString, h.getReadSize, hsize, hcontent, hout, cString,
    List.append_assoc]
  rw [takeWhile_ne_of_not_mem hm]
  simp

theorem Stores.readString (h : c.Stores q) (beyond : List UInt8) :
    (c.readString beyond).2.Stores (q.drop (frameSize 0 q)) :=
  ⟨h.1, holds_readString h.2 beyond⟩

theorem Stores.readString_frame {m rest : List UInt8} (hm : 0 ∉ m) (h : c.Stores (m ++ 0 :: rest))
    (beyond : List UInt8) :
    (c.readString beyond).1 = m ∧ (c.readString beyond).2.Stores rest :=
  have ⟨hout, hnext⟩ := holds_readString_frame hm h.2 beyond
  ⟨hout, h.1, hnext⟩

/-- An event that has room stores what `Receive` writes, or takes a frame. -/
def stepBytes (q : List UInt8) : RecvEvent → List UInt8
  | .receive chunks _ _ => q ++ (chunks.map terminate).flatten
  | .read _ => q.drop (frameSize 0 q)

theorem Stores.recvStep (h : c.Stores q) {e : RecvEvent} (hroom : WithRoom c e) :
    (Connection.recvStep c e).2.Stores (stepBytes q e) := by
  cases e with
  | receive chunks eof ctl =>
    have hsize := h.2.getWriteableSize
    simp only [WithRoom] at hroom
    exact h.receive ctl _ (by cases eof <;> simp) (by omega)
  | read beyond => exact h.readString beyond

/-! ## Whole runs -/

/-- Reading until nothing is stored gives the messages of the frames that are stored. -/
theorem Stores.drain_frames {ms : List (List UInt8)} (hms : ∀ m ∈ ms, 0 ∉ m) (beyond : List UInt8)
    {n : ℕ} (hn : ms.length ≤ n) (h : c.Stores (frames 0 ms)) : c.drain beyond n = ms := by
  induction ms generalizing c n with
  | nil =>
    cases n with
    | zero => rfl
    | succ n => rw [drain, if_pos (by rw [h.2.getReadableSize]; rfl)]
  | cons m ms ih =>
    rw [frames_cons] at h
    obtain ⟨hout, hnext⟩ := h.readString_frame (hms m (by simp)) beyond
    cases n with
    | zero => simp at hn
    | succ n =>
      rw [drain, if_neg (by rw [h.2.getReadableSize, List.length_append, List.length_cons]; omega),
        hout, ih (fun m' hm' => hms m' (by simp [hm'])) (by simpa using hn) hnext]

/-- The messages that a framed run reads, and those left to read after it, are the messages whose
frames are stored at its start and received during it. -/
theorem Stores.results_append_drain {ms : List (List UInt8)} (hms : ∀ m ∈ ms, 0 ∉ m)
    (beyond : List UInt8) {es : List RecvEvent} (h : c.Stores q)
    (hroom : Machine.Along Connection.recvStep WithRoom c es)
    (hframed : Machine.Along Connection.recvStep Framed c es)
    (hstream : q ++ received es = frames 0 ms) :
    c.results es ++ (Machine.run Connection.recvStep c es).readMessages beyond = ms := by
  induction es generalizing c q ms with
  | nil =>
    rw [received, List.append_nil] at hstream
    subst hstream
    refine h.drain_frames hms beyond ?_
    rw [Machine.run_nil, h.2.getReadableSize, Int.toNat_natCast, ← count_frames hms]
    exact List.count_le_length
  | cons e es ih =>
    have hnext := h.recvStep hroom.1
    cases e with
    | receive chunks eof ctl =>
      rw [stepBytes, flatten_map_terminate hframed.1] at hnext
      exact ih hms hnext hroom.2 hframed.2 (by rw [List.append_assoc]; exact hstream)
    | read beyond' =>
      have hnul : 0 ∈ q := by simpa only [Framed, h.2.stored] using hframed.1
      obtain ⟨m, ms', rest, rfl, rfl, hrest⟩ := exists_frame_of_append_eq_frames hms hstream hnul
      obtain ⟨hout, hnext⟩ := h.readString_frame (hms m (by simp)) beyond'
      have := ih (fun m' hm' => hms m' (by simp [hm'])) hnext hroom.2 hframed.2 hrest
      rw [results_read, hout, List.cons_append]
      exact congrArg (m :: ·) this

theorem length_drain_ge (beyond : List UInt8) {n : ℕ} (hn : q.length ≤ n) (h : c.Stores q) :
    q.count 0 ≤ (c.drain beyond n).length := by
  induction n generalizing c q with
  | zero =>
    obtain rfl : q = [] := List.length_eq_zero_iff.mp (by omega)
    simp
  | succ n ih =>
    rw [drain]
    split_ifs with hempty
    · rw [h.2.getReadableSize] at hempty
      obtain rfl : q = [] := List.length_eq_zero_iff.mp (by omega)
      simp
    · by_cases hnul : 0 ∈ q
      · obtain ⟨m, rest, rfl, hm⟩ := List.eq_append_cons_of_mem hnul
        obtain ⟨-, hnext⟩ := h.readString_frame hm beyond
        have := ih (by simp only [List.length_append, List.length_cons] at hn; omega) hnext
        rw [List.count_append, List.count_eq_zero.mpr hm, List.count_cons_self, List.length_cons]
        omega
      · rw [List.count_eq_zero.mpr hnul]
        exact Nat.zero_le _

/-- A run with an event that is not framed gives more messages than there are NULs stored at its
start and received during it; no run gives fewer. -/
theorem Stores.count_le_length (beyond : List UInt8) {es : List RecvEvent} (h : c.Stores q)
    (hroom : Machine.Along Connection.recvStep WithRoom c es) :
    q.count 0 + (received es).count 0 ≤
        (c.results es ++ (Machine.run Connection.recvStep c es).readMessages beyond).length ∧
      (¬ Machine.Along Connection.recvStep Framed c es →
        q.count 0 + (received es).count 0 <
          (c.results es ++
            (Machine.run Connection.recvStep c es).readMessages beyond).length) := by
  induction es generalizing c q with
  | nil =>
    refine ⟨?_, fun hn => absurd trivial hn⟩
    have hn : q.length ≤ c.user.recvBuffer.getReadableSize.toNat := by
      rw [h.2.getReadableSize, Int.toNat_natCast]
    simpa [received, readMessages] using length_drain_ge beyond hn h
  | cons e es ih =>
    have hnext := h.recvStep hroom.1
    obtain ⟨ihle, ihlt⟩ := ih hnext hroom.2
    rw [Machine.along_cons, not_and_or, Machine.run_cons]
    cases e with
    | receive chunks eof ctl =>
      obtain ⟨hle, hlt⟩ := count_flatten_terminate chunks
      rw [results_receive]
      simp only [stepBytes, received, List.count_append] at ihle ihlt ⊢
      refine ⟨by omega, ?_⟩
      rintro (hbad | hbad)
      · have := hlt hbad
        omega
      · have := ihlt hbad
        omega
    | read beyond' =>
      rw [results_read, List.cons_append, List.length_cons]
      simp only [stepBytes, received, Connection.recvStep] at ihle ihlt ⊢
      by_cases hnul : 0 ∈ q
      · obtain ⟨m, rest, rfl, hm⟩ := List.eq_append_cons_of_mem hnul
        have hdrop : (m ++ 0 :: rest).drop (frameSize 0 (m ++ 0 :: rest)) = rest := by
          rw [frameSize_frame hm]
          simp
        rw [hdrop] at ihle ihlt
        rw [List.count_append, List.count_eq_zero.mpr hm, List.count_cons_self]
        refine ⟨by omega, ?_⟩
        rintro (hbad | hbad)
        · exact absurd (by rwa [Framed, h.2.stored]) hbad
        · have := ihlt hbad
          omega
      · rw [List.count_eq_zero.mpr hnul]
        exact ⟨by omega, fun _ => by omega⟩

end Connection

open Connection

/-- **Receiving and the cutting of the stream.** On every accepted connection, for every list of
NUL-free messages sent with their NULs and every run in which `recv` returns that stream, cut in any
way, and the receive buffer has room: the strings read during the run and by reading on until
nothing is stored are the messages sent, in order, if and only if every chunk shorter than the
receive size ends in NUL and no `Read()` was called while no NUL was stored. -/
theorem messages_received_iff (fdSocket fdEpoll : ℤ) (junk junk' : ℤ → UInt8) {usable : ℕ}
    (husable : 0 < usable) (ctl : ℤ) (ms : List (List UInt8)) (hms : ∀ m ∈ ms, 0 ∉ m)
    (es : List RecvEvent) (hstream : received es = frames 0 ms)
    (hroom : Machine.Along recvStep WithRoom
      (accept fdSocket fdEpoll junk junk' usable ctl) es) (beyond : List UInt8) :
    (accept fdSocket fdEpoll junk junk' usable ctl).results es ++
        (Machine.run recvStep (accept fdSocket fdEpoll junk junk' usable ctl) es).readMessages
          beyond = ms ↔
      Machine.Along recvStep Framed (accept fdSocket fdEpoll junk junk' usable ctl) es := by
  have h : (accept fdSocket fdEpoll junk junk' usable ctl).Stores [] := by
    refine ⟨by simp [accept], ?_⟩
    simpa [accept] using Holds.new junk husable
  constructor
  · intro heq
    by_contra hframed
    have hlt := (h.count_le_length beyond hroom).2 hframed
    rw [heq, hstream, count_frames hms, List.count_nil, Nat.zero_add] at hlt
    exact absurd hlt (lt_irrefl _)
  · intro hframed
    exact h.results_append_drain hms beyond hroom hframed (by rw [List.nil_append, hstream])

/-- Two messages in one segment, one of them empty, and a third in a second segment. -/
theorem messages_received_segments :
    (accept 5 4 (fun _ => 1) (fun _ => 0) 16 0).results
          [.receive [[104, 105, 0, 0]] false 0, .read [], .receive [[97, 0]] false 0] ++
        (Machine.run recvStep (accept 5 4 (fun _ => 1) (fun _ => 0) 16 0)
          [.receive [[104, 105, 0, 0]] false 0, .read [], .receive [[97, 0]] false 0]).readMessages
          [] =
      [[104, 105], [], [97]] :=
  (messages_received_iff 5 4 (fun _ => 1) (fun _ => 0) (by decide) 0 [[104, 105], [], [97]]
    (by decide) _ (by decide) (by decide +kernel) []).mpr (by decide +kernel)

/-- The message `hi` in two segments is read as `h` and `i`. -/
theorem message_split :
    ¬ ((accept 5 4 (fun _ => 1) (fun _ => 0) 16 0).results [.receive [[104], [105, 0]] false 0] ++
        (Machine.run recvStep (accept 5 4 (fun _ => 1) (fun _ => 0) 16 0)
          [.receive [[104], [105, 0]] false 0]).readMessages [] = [[104, 105]]) := by
  decide +kernel

end CodeTest.Net
