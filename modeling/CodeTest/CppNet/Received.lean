import CodeTest.CppNet.Sent

/-!
# Receiving on a socket of the epoll engine

`Recv` fills free pieces of the read buffer until a `readv` hands over less than there is room for.
When it instead ends with `EAGAIN`, it moves the write point by the return value of the failed call,
which is -1, and so drops the newest byte that is stored. `received_iff` says that this is the one
way in which bytes are lost: in a run the bytes the application has read, followed by those in the
read buffer, are the bytes the kernel has handed over if and only if no `Recv` ends so while
something is stored.
-/

namespace CodeTest.CppNet

namespace RWSocket

variable {s : RWSocket} {q : List UInt8}

/-! ## The rounds of `Recv` -/

/-- What the kernel hands over of `bytes` in a round that asks for `size` bytes of free memory. -/
def handed (s : RWSocket) (size : ℕ) (bytes : List UInt8) : List UInt8 :=
  bytes.take (vecLength (s.readBuffer.getFreeMemoryBlock size).1)

/-- The socket after a round in which the kernel has handed over `got`. -/
def filled (s : RWSocket) (size : ℕ) (got : List UInt8) : RWSocket :=
  { s with readBuffer := (s.readBuffer.fill size got).2, received := s.received ++ got }

variable {rets : List Readv} {ret : Readv} {expandBuffLen : ℕ} {needExpend : Bool}
  {offSet : UInt32} {bytes : List UInt8} {ctl : Bool}

theorem recvLoop_end (hnil : s.handed (expand needExpend expandBuffLen) bytes = []) :
    recvLoop (.data bytes ctl :: rets) s expandBuffLen needExpend offSet =
      (some false, { s with readBuffer := (s.readBuffer.getFreeMemoryBlock
        (expand needExpend expandBuffLen)).2 }.onDisConnect .closed ctl) := by
  rw [recvLoop]
  exact if_pos (List.length_eq_zero_iff.mpr hnil)

theorem recvLoop_short (hne : s.handed (expand needExpend expandBuffLen) bytes ≠ [])
    (hshort : (s.handed (expand needExpend expandBuffLen) bytes).length <
      vecLength (s.readBuffer.getFreeMemoryBlock (expand needExpend expandBuffLen)).1) :
    recvLoop (.data bytes ctl :: rets) s expandBuffLen needExpend offSet =
      (some true, (s.filled (expand needExpend expandBuffLen)
        (s.handed (expand needExpend expandBuffLen) bytes)).tell (.onRead (offSet +
          UInt32.ofNat (s.handed (expand needExpend expandBuffLen) bytes).length))) := by
  rw [recvLoop]
  exact (if_neg (fun h => hne (List.eq_nil_of_length_eq_zero h))).trans (if_pos hshort)

theorem recvLoop_full (hne : s.handed (expand needExpend expandBuffLen) bytes ≠ [])
    (hfull : ¬ (s.handed (expand needExpend expandBuffLen) bytes).length <
      vecLength (s.readBuffer.getFreeMemoryBlock (expand needExpend expandBuffLen)).1) :
    recvLoop (.data bytes ctl :: rets) s expandBuffLen needExpend offSet =
      recvLoop rets (s.filled (expand needExpend expandBuffLen)
        (s.handed (expand needExpend expandBuffLen) bytes)) (grow needExpend expandBuffLen) true
        (offSet + UInt32.ofNat (s.handed (expand needExpend expandBuffLen) bytes).length) := by
  rw [recvLoop]
  exact (if_neg (fun h => hne (List.eq_nil_of_length_eq_zero h))).trans (if_neg hfull)

theorem handed_stores (h : QueueStores s.readBuffer q) (size : ℕ) (bytes : List UInt8) :
    QueueStores (s.filled size (s.handed size bytes)).readBuffer (q ++ s.handed size bytes) :=
  (h.fill size (List.length_take_le _ _)).2.1

/-- An answer with which the call returns is the last one it gets. -/
theorem eq_nil_of_returns
    (hend : ∀ rets, (recvLoop (ret :: rets) s expandBuffLen needExpend offSet).1 ≠ none)
    (hall : (recvLoop (ret :: rets).dropLast s expandBuffLen needExpend offSet).1 = none) :
    rets = [] := by
  by_contra hne
  rw [List.dropLast_cons_of_ne_nil hne] at hall
  exact hend _ hall

/-- What one `Recv` does to the read buffer, when `rets` are the answers it gets and no more: the
bytes handed over are stored behind what was there, less the newest byte of all when the last answer
is `EAGAIN`. -/
theorem recvLoop_spec (h : QueueStores s.readBuffer q)
    (hret : (recvLoop rets s expandBuffLen needExpend offSet).1 ≠ none)
    (hall : (recvLoop rets.dropLast s expandBuffLen needExpend offSet).1 = none) :
    let s' := (recvLoop rets s expandBuffLen needExpend offSet).2
    ∃ bytes, s'.received = s.received ++ bytes ∧
      (rets.getLast? = some .again → (bytes = [] ↔ rets = [.again]) ∧
        QueueStores s'.readBuffer ((q ++ bytes).take ((q ++ bytes).length - 1))) ∧
      (rets.getLast? ≠ some .again → QueueStores s'.readBuffer (q ++ bytes)) := by
  induction rets generalizing s q expandBuffLen needExpend offSet with
  | nil => exact absurd rfl hret
  | cons ret rets ih =>
    have hstores := (h.getFreeMemoryBlock (expand needExpend expandBuffLen)).1
    cases ret with
    | again =>
      obtain rfl := eq_nil_of_returns (by simp [recvLoop]) hall
      have hback := hstores.moveWritePt_back one_pos
      rw [Nat.cast_one] at hback
      refine ⟨[], by simp [recvLoop, tell], fun _ => ⟨by simp, ?_⟩, fun hlast => absurd rfl hlast⟩
      rw [List.append_nil]
      simpa only [recvLoop, tell] using hback
    | error ctl =>
      obtain rfl := eq_nil_of_returns (by simp [recvLoop]) hall
      refine ⟨[], by simp [recvLoop], by simp, fun _ => ?_⟩
      simpa [recvLoop] using hstores
    | data bytes ctl =>
      by_cases hnil : s.handed (expand needExpend expandBuffLen) bytes = []
      · obtain rfl := eq_nil_of_returns (fun _ => by rw [recvLoop_end hnil]; simp) hall
        rw [recvLoop_end hnil]
        refine ⟨[], by simp, by simp, fun _ => ?_⟩
        simpa using hstores
      by_cases hshort : (s.handed (expand needExpend expandBuffLen) bytes).length <
          vecLength (s.readBuffer.getFreeMemoryBlock (expand needExpend expandBuffLen)).1
      · obtain rfl := eq_nil_of_returns (fun _ => by rw [recvLoop_short hnil hshort]; simp) hall
        rw [recvLoop_short hnil hshort]
        exact ⟨_, rfl, by simp, fun _ => handed_stores h _ bytes⟩
      · have hne : rets ≠ [] := by
          rintro rfl
          rw [recvLoop_full hnil hshort] at hret
          exact hret rfl
        rw [recvLoop_full hnil hshort] at hret ⊢
        rw [List.dropLast_cons_of_ne_nil hne, recvLoop_full hnil hshort] at hall
        obtain ⟨more, hreceived, hagain, hother⟩ := ih (handed_stores h _ bytes) hret hall
        rw [List.getLast?_cons_of_ne_nil hne]
        refine ⟨s.handed (expand needExpend expandBuffLen) bytes ++ more, ?_, fun hlast => ?_,
          fun hlast => ?_⟩
        · rw [hreceived, filled, List.append_assoc]
        · rw [← List.append_assoc]
          exact ⟨by simp [hnil], (hagain hlast).2⟩
        · rw [← List.append_assoc]
          exact hother hlast

/-! ## Sending leaves the receiving side alone -/

theorem addSendEvent_frame (s : RWSocket) (ctl : Bool) :
    (s.addSendEvent ctl).2.readBuffer = s.readBuffer ∧
      (s.addSendEvent ctl).2.received = s.received := by
  simp only [addSendEvent]
  split_ifs <;> exact ⟨rfl, rfl⟩

theorem sendLoop_frame (rets : List Writev) (s : RWSocket) (offSet : ℕ) :
    (sendLoop rets s offSet).2.readBuffer = s.readBuffer ∧
      (sendLoop rets s offSet).2.received = s.received := by
  induction rets generalizing s offSet with
  | nil =>
    unfold sendLoop
    split_ifs <;> exact ⟨rfl, rfl⟩
  | cons ret rets ih =>
    unfold sendLoop
    split_ifs
    · cases ret with
      | room n => exact ih _ _
      | again ctl => exact addSendEvent_frame s ctl
      | badMsg ctl => simp
      | error ctl => simp
    · exact ⟨rfl, rfl⟩

theorem write_frame (s : RWSocket) (src : List UInt8) (ctl : Bool) (rets : List Writev) :
    (s.write src ctl rets).2.readBuffer = s.readBuffer ∧
      (s.write src ctl rets).2.received = s.received := by
  unfold write
  split_ifs
  · exact ⟨rfl, rfl⟩
  · exact addSendEvent_frame _ ctl
  · exact sendLoop_frame rets _ 0

end RWSocket

namespace Stream

variable {s : Stream} {e : SocketEvent}

/-! ## Runs -/

/-- The answers of a `Recv` are those it gets, and it returns. -/
def Answered (s : Stream) : SocketEvent → Prop
  | .onRead rets => (s.sock.onRead rets).1 ≠ none ∧ (s.sock.onRead rets.dropLast).1 = none
  | _ => True

/-- A `Recv` does not end with `EAGAIN`, unless it gets nothing and nothing is stored. -/
def Keeps (s : Stream) : SocketEvent → Prop
  | .onRead rets => rets.getLast? = some .again →
      rets = [.again] ∧ storedList s.sock.readBuffer.bufferList = []
  | _ => True

instance (s : Stream) : ∀ e, Decidable (Answered s e)
  | .onRead rets => inferInstanceAs (Decidable
      ((s.sock.onRead rets).1 ≠ none ∧ (s.sock.onRead rets.dropLast).1 = none))
  | .write .. | .onWrite _ | .read _ | .hangUp _ => inferInstanceAs (Decidable True)

instance (s : Stream) : ∀ e, Decidable (Keeps s e)
  | .onRead rets => inferInstanceAs (Decidable (rets.getLast? = some .again →
      rets = [.again] ∧ storedList s.sock.readBuffer.bufferList = []))
  | .write .. | .onWrite _ | .read _ | .hangUp _ => inferInstanceAs (Decidable True)

/-- The read buffer stores `q`, and the socket has received `received`. -/
def Reads (s : Stream) (q received : List UInt8) : Prop :=
  QueueStores s.sock.readBuffer q ∧ s.sock.received = received

theorem Reads.of_frame {s' : Stream} {q received : List UInt8} (h : s.Reads q received)
    (hframe : s'.sock.readBuffer = s.sock.readBuffer ∧ s'.sock.received = s.sock.received) :
    s'.Reads q received := by
  unfold Reads
  rw [hframe.1, hframe.2]
  exact h

/-- What one event does to the receiving side: the application takes the oldest bytes, and a `Recv`
stores what it is handed, less the newest byte if it does not keep it. -/
theorem reads_step {q : List UInt8} (h : QueueStores s.sock.readBuffer q) (he : s.Answered e) :
    ∃ taken bytes q', (Stream.step s e).2.got = s.got ++ taken ∧
      (Stream.step s e).2.Reads q' (s.sock.received ++ bytes) ∧
      (s.Keeps e → taken ++ q' = q ++ bytes) ∧
      (¬ s.Keeps e → taken.length + q'.length < q.length + bytes.length) := by
  have hframe : ∀ s' : Stream, s'.got = s.got → s'.Reads q s.sock.received → s.Keeps e →
      ∃ taken bytes q', s'.got = s.got ++ taken ∧ s'.Reads q' (s.sock.received ++ bytes) ∧
        (s.Keeps e → taken ++ q' = q ++ bytes) ∧
        (¬ s.Keeps e → taken.length + q'.length < q.length + bytes.length) :=
    fun s' hgot hreads hkeeps => ⟨[], [], q, by simpa using hgot, by simpa using hreads,
      fun _ => by simp, fun hlost => absurd hkeeps hlost⟩
  have hself : s.Reads q s.sock.received := ⟨h, rfl⟩
  cases e with
  | write src ctl rets =>
    exact hframe _ rfl (hself.of_frame (RWSocket.write_frame s.sock src ctl rets)) trivial
  | onWrite rets =>
    exact hframe _ rfl (hself.of_frame (RWSocket.sendLoop_frame rets s.sock 0)) trivial
  | hangUp ctl => exact hframe _ rfl (hself.of_frame (by simp [Stream.step])) trivial
  | read len =>
    obtain ⟨hbytes, hstores, -⟩ := h.read len
    refine ⟨q.take len, [], q.drop len, congrArg (s.got ++ ·) hbytes,
      ⟨hstores, by simp [Stream.step]⟩, fun _ => by simp, fun hlost => absurd trivial hlost⟩
  | onRead rets =>
    obtain ⟨bytes, hreceived, hagain, hother⟩ := RWSocket.recvLoop_spec h he.1 he.2
    by_cases hlast : rets.getLast? = some .again
    · obtain ⟨honly, hstores⟩ := hagain hlast
      refine ⟨[], bytes, _, by simp [Stream.step], ⟨hstores, hreceived⟩, fun hkeeps => ?_,
        fun hlost => ?_⟩
      · obtain ⟨hrets, hempty⟩ := hkeeps hlast
        rw [h.stored] at hempty
        simp [honly.mpr hrets, hempty]
      · have hpos : 0 < (q ++ bytes).length := by
          rw [List.length_pos_iff]
          intro hnil
          obtain ⟨hq, hbytes⟩ := List.append_eq_nil_iff.mp hnil
          exact hlost fun _ => ⟨honly.mp hbytes, h.stored.trans hq⟩
        rw [List.length_take, List.length_nil, ← List.length_append]
        omega
    · refine ⟨[], bytes, q ++ bytes, by simp [Stream.step], ⟨hother hlast, hreceived⟩,
        fun _ => by simp, fun hlost => absurd (fun h => absurd h hlast) hlost⟩

/-- The bytes read and those stored are the bytes received, in order. -/
def Received (s : Stream) : Prop :=
  ∃ q, QueueStores s.sock.readBuffer q ∧ s.got ++ q = s.sock.received

/-- What a client can compare: the bytes read and those in the read buffer are the bytes received,
in order. -/
def Complete (s : Stream) : Prop :=
  s.got ++ storedList s.sock.readBuffer.bufferList = s.sock.received

/-- Bytes received are neither read nor stored. -/
def Missing (s : Stream) : Prop :=
  ∃ q, QueueStores s.sock.readBuffer q ∧ s.got.length + q.length < s.sock.received.length

theorem Received.keeps (h : s.Received) (he : s.Answered e) (hkeeps : s.Keeps e) :
    (Stream.step s e).2.Received := by
  obtain ⟨q, hq, hgot⟩ := h
  obtain ⟨taken, bytes, q', hgot', ⟨hq', hreceived⟩, hsame, -⟩ := reads_step hq he
  refine ⟨q', hq', ?_⟩
  rw [hgot', hreceived, ← hgot, List.append_assoc, List.append_assoc, hsame hkeeps]

theorem Received.loses (h : s.Received) (he : s.Answered e) (hlost : ¬ s.Keeps e) :
    (Stream.step s e).2.Missing := by
  obtain ⟨q, hq, hgot⟩ := h
  obtain ⟨taken, bytes, q', hgot', ⟨hq', hreceived⟩, -, hless⟩ := reads_step hq he
  refine ⟨q', hq', ?_⟩
  have hlen := hless hlost
  rw [hgot', hreceived, ← hgot]
  simp only [List.length_append]
  omega

theorem Missing.step (h : s.Missing) (he : s.Answered e) : (Stream.step s e).2.Missing := by
  obtain ⟨q, hq, hgot⟩ := h
  obtain ⟨taken, bytes, q', hgot', ⟨hq', hreceived⟩, hsame, hless⟩ := reads_step hq he
  refine ⟨q', hq', ?_⟩
  have hlen : taken.length + q'.length ≤ q.length + bytes.length := by
    by_cases hkeeps : s.Keeps e
    · have hlen := congrArg List.length (hsame hkeeps)
      rw [List.length_append, List.length_append] at hlen
      exact hlen.le
    · exact (hless hkeeps).le
  rw [hgot', hreceived]
  simp only [List.length_append]
  omega

/-- From a state in which nothing is missing, nothing is missing at the end of a run exactly when
every `Recv` keeps what it gets. -/
theorem Received.run_iff (h : s.Received) {es : List SocketEvent}
    (hes : Machine.Along step Answered s es) :
    (Machine.run step s es).Complete ↔ Machine.Along step Keeps s es := by
  induction es generalizing s with
  | nil =>
    obtain ⟨q, hq, hgot⟩ := h
    exact iff_of_true (by rw [Machine.run_nil, Complete, hq.stored, hgot]) trivial
  | cons e es ih =>
    rw [Machine.run_cons, Machine.along_cons]
    by_cases hkeeps : s.Keeps e
    · rw [ih (h.keeps hes.1 hkeeps) hes.2]
      exact (and_iff_right hkeeps).symm
    · refine iff_of_false ?_ fun hall => hkeeps hall.1
      have hstep : ∀ s e, Missing s → Answered s e → Missing (step s e).2 :=
        fun _ _ h he => h.step he
      obtain ⟨q, hq, hless⟩ := Machine.run_invariant hstep (h.loses hes.1 hkeeps) hes.2
      intro heq
      have hlen := congrArg List.length heq
      rw [hq.stored, List.length_append] at hlen
      omega

/-- **Received bytes are lost exactly by `EAGAIN`.** In a run from a fresh socket the bytes that the
application has read, followed by those in the read buffer, are the bytes the kernel has handed over
if and only if no `Recv` ends with `EAGAIN`, except one that gets nothing and meets an empty read
buffer. -/
theorem received_iff {N : ℕ} (hN : 0 < N) (junk junk' : ℕ → ℤ → UInt8) (es : List SocketEvent)
    (hes : Machine.Along step Answered (Stream.new N junk junk') es) :
    (Machine.run step (Stream.new N junk junk') es).Complete ↔
      Machine.Along step Keeps (Stream.new N junk junk') es :=
  Received.run_iff ⟨[], .new hN junk', rfl⟩ hes

/-- Three bytes for a block of four are kept, and a second `Recv` stops at the free byte. -/
theorem received_iff_three :
    (Machine.run step (Stream.new 4 (fun _ _ => 0) fun _ _ => 0)
      [.onRead [.data [1, 2, 3] true], .read 2, .onRead [.data [4] true]]).Complete :=
  (received_iff (by decide) _ _ _ (by decide +kernel)).mpr (by decide +kernel)

/-- A `Recv` that finds nothing to read drops the newest byte of an earlier one. -/
example : storedList (Machine.run step (Stream.new 4 (fun _ _ => 0) fun _ _ => 0)
    [.onRead [.data [1, 2, 3] true], .onRead [.again]]).sock.readBuffer.bufferList = [1, 2] := by
  decide +kernel

end Stream

end CodeTest.CppNet
