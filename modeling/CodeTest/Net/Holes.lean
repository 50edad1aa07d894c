import CodeTest.Net.Receiving

/-!
# The received stream has no holes while the chunks fit

`Receive` writes every chunk to the receive buffer and does not look at the result of `Write`. So a
chunk for which there is no room is dropped, the connection stays as it is, and a later chunk that
is smaller is stored behind the hole. Here the turns of the loop of `Receive` and the reads of the
application are the events of one run, in any order. As long as every chunk leaves room in the
buffer, the chunks stored are those received, and the bytes read and still stored are exactly those
written for them.
-/

namespace CodeTest.Net

open Framing

namespace Connection

/-- A turn of the loop of `Receive` with the answer of its `recv`, or one of the ways in which the
application reads. -/
inductive StreamEvent
  | recv (result : RecvResult) (ctl : ℤ)
  | read (beyond : List UInt8)
  | readAll (beyond : List UInt8)
  | readInto (size : ℕ)

/-- What an event shows: a chunk and whether it was stored, or the bytes taken from the buffer. -/
inductive StreamView
  | chunk (bytes : List UInt8) (stored : Bool)
  | taken (bytes : List UInt8)

/-- The bytes that a `Read` of the receive buffer takes. -/
def takes (c : Connection) (size : ℕ) : List UInt8 := (c.user.recvBuffer.read size).1.getD []

/-- One event. -/
def streamStep : Machine Connection StreamEvent StreamView
  | c, .recv (.data chunk) ctl =>
    (.chunk chunk (c.registered && (c.user.recvBuffer.write (terminate chunk)).1),
      (c.receive ctl [.data chunk]).2)
  | c, .recv result ctl => (.taken [], (c.receive ctl [result]).2)
  | c, .read beyond => (.taken (c.takes c.user.recvBuffer.getReadSize), (c.readString beyond).2)
  | c, .readAll beyond =>
    (.taken (c.takes c.user.recvBuffer.getReadableSize.toNat), (c.readAll beyond).2)
  | c, .readInto size => (.taken (c.takes size), (c.readInto size).2)

/-- The chunk that `recv` returns in an event. -/
def StreamEvent.received : StreamEvent → Option (List UInt8)
  | .recv (.data chunk) _ => some chunk
  | _ => none

def StreamView.chunk? : StreamView → Option (List UInt8 × Bool)
  | .chunk bytes stored => some (bytes, stored)
  | .taken _ => none

def StreamView.takenBytes : StreamView → List UInt8
  | .chunk _ _ => []
  | .taken bytes => bytes

/-- The chunks that `recv` returns during the events. -/
def receivedChunks (es : List StreamEvent) : List (List UInt8) := es.filterMap StreamEvent.received

/-- The chunks of a run, each with whether it was stored. -/
def chunks (c : Connection) (es : List StreamEvent) : List (List UInt8 × Bool) :=
  (Machine.outputs streamStep c es).filterMap StreamView.chunk?

/-- The chunks of a run that were stored. -/
def storedChunks (c : Connection) (es : List StreamEvent) : List (List UInt8) :=
  ((c.chunks es).filter fun chunk => chunk.2).map Prod.fst

/-- The bytes that the reads of a run take. -/
def takenBytes (c : Connection) (es : List StreamEvent) : List UInt8 :=
  (Machine.outputs streamStep c es).flatMap StreamView.takenBytes

/-- What is expected of a run: the chunks stored are a first part of those received, none is stored
after one that was not, and what was read and what is stored are the bytes of the chunks stored. -/
structure NoHoles (c : Connection) (es : List StreamEvent) : Prop where
  initial : c.storedChunks es <+: receivedChunks es
  never_after : (c.chunks es).Pairwise fun earlier later => later.2 = true → earlier.2 = true
  bytes : c.takenBytes es ++ (Machine.run streamStep c es).user.recvBuffer.stored =
    ((c.storedChunks es).map terminate).flatten

/-- A chunk leaves room in the buffer, and a read asks for no more than is stored. -/
def Fits (c : Connection) : StreamEvent → Prop
  | .recv (.data chunk) _ => (terminate chunk).length < c.user.recvBuffer.getWriteableSize
  | .readInto size => size ≤ c.user.recvBuffer.getReadableSize
  | _ => True

instance (c : Connection) : ∀ e, Decidable (Fits c e)
  | .recv (.data chunk) _ => inferInstanceAs
      (Decidable (((terminate chunk).length : ℤ) < c.user.recvBuffer.getWriteableSize))
  | .readInto size => inferInstanceAs (Decidable ((size : ℤ) ≤ c.user.recvBuffer.getReadableSize))
  | .recv .error _ => isTrue trivial
  | .recv .eof _ => isTrue trivial
  | .read _ => isTrue trivial
  | .readAll _ => isTrue trivial

/-! ## One event -/

variable {c : Connection} {q : List UInt8}

/-- A read of no more than is stored takes the oldest bytes. -/
theorem Stores.take (h : c.Stores q) {size : ℕ} (hsize : size ≤ q.length) :
    (c.setRecvBuffer (c.user.recvBuffer.read size).2).Stores (q.drop size) ∧
      c.takes size ++ q.drop size = q := by
  obtain ⟨hreg, hstored⟩ := h
  obtain ⟨htaken, hrest, -⟩ := hstored.read hsize
  refine ⟨⟨hreg, hrest⟩, ?_⟩
  rw [takes, htaken, List.take_append_drop]

/-- A chunk that leaves room is stored. -/
theorem Stores.recv (h : c.Stores q) {chunk : List UInt8} {ctl : ℤ}
    (hfits : Fits c (.recv (.data chunk) ctl)) :
    (streamStep c (.recv (.data chunk) ctl)).1 = .chunk chunk true ∧
      (streamStep c (.recv (.data chunk) ctl)).2.Stores (q ++ terminate chunk) := by
  obtain ⟨hreg, hstored⟩ := h
  have hroom := hstored.getWriteableSize
  simp only [Fits] at hfits
  have hfit : q.length + (terminate chunk).length < c.user.recvBuffer.mallocRealSize := by omega
  obtain ⟨hok, hnext, -⟩ := hstored.write hfit
  refine ⟨?_, ?_⟩
  · simp [streamStep, hreg, hok]
  · simpa [streamStep, Connection.receive, hreg, Stores, setRecvBuffer] using hnext

/-- An event that fits stores the chunk it receives, and takes bytes from the front. -/
theorem Stores.streamStep (h : c.Stores q) {e : StreamEvent} (hfits : Fits c e) :
    ∃ q', (Connection.streamStep c e).2.Stores q' ∧
      (Connection.streamStep c e).1.chunk? = e.received.map (·, true) ∧
      (Connection.streamStep c e).1.takenBytes ++ q' =
        q ++ (e.received.toList.map terminate).flatten := by
  have hlength := h.2.getReadableSize
  cases e with
  | recv result ctl =>
    cases result with
    | error => exact ⟨q, by simpa [Connection.streamStep, Connection.receive, Stores] using h, rfl,
        by simp [Connection.streamStep, StreamView.takenBytes, StreamEvent.received]⟩
    | eof => exact ⟨q, by simpa [Connection.streamStep, Connection.receive] using h, rfl,
        by simp [Connection.streamStep, StreamView.takenBytes, StreamEvent.received]⟩
    | data chunk =>
      obtain ⟨hview, hnext⟩ := h.recv hfits
      refine ⟨q ++ terminate chunk, hnext, ?_, ?_⟩
      · rw [hview]
        rfl
      · rw [hview]
        simp [StreamView.takenBytes, StreamEvent.received]
  | read beyond =>
    have hsize : c.user.recvBuffer.getReadSize ≤ q.length := by
      rw [h.2.getReadSize]
      exact frameSize_le_length q
    obtain ⟨hnext, htaken⟩ := h.take hsize
    exact ⟨_, hnext, rfl, htaken.trans (List.append_nil q).symm⟩
  | readAll beyond =>
    have hsize : c.user.recvBuffer.getReadableSize.toNat ≤ q.length := by omega
    obtain ⟨hnext, htaken⟩ := h.take hsize
    exact ⟨_, hnext, rfl, htaken.trans (List.append_nil q).symm⟩
  | readInto size =>
    simp only [Fits] at hfits
    have hsize : size ≤ q.length := by omega
    obtain ⟨hnext, htaken⟩ := h.take hsize
    exact ⟨_, hnext, rfl, htaken.trans (List.append_nil q).symm⟩

/-! ## Whole runs -/

/-- Along a run whose events fit every chunk is stored. -/
theorem Stores.chunks_eq (h : c.Stores q) {es : List StreamEvent}
    (hfits : Machine.Along Connection.streamStep Fits c es) :
    c.chunks es = (receivedChunks es).map (·, true) := by
  induction es generalizing c q with
  | nil => rfl
  | cons e es ih =>
    obtain ⟨q', hnext, hchunk, -⟩ := h.streamStep hfits.1
    have ih' := ih hnext hfits.2
    rw [chunks] at ih' ⊢
    rw [Machine.outputs_cons, receivedChunks]
    cases hreceived : e.received with
    | none =>
      rw [hreceived] at hchunk
      rw [List.filterMap_cons_none hchunk, List.filterMap_cons_none hreceived, ih', receivedChunks]
    | some chunk =>
      rw [hreceived] at hchunk
      rw [List.filterMap_cons_some hchunk, List.filterMap_cons_some hreceived, ih',
        receivedChunks, List.map_cons]

/-- Along a run whose events fit the bytes taken and stored are those stored at its start and those
of the chunks received. -/
theorem Stores.taken_append_stored (h : c.Stores q) {es : List StreamEvent}
    (hfits : Machine.Along Connection.streamStep Fits c es) :
    c.takenBytes es ++ (Machine.run Connection.streamStep c es).user.recvBuffer.stored =
      q ++ ((receivedChunks es).map terminate).flatten := by
  induction es generalizing c q with
  | nil => simpa [takenBytes, receivedChunks] using h.2.stored
  | cons e es ih =>
    obtain ⟨q', hnext, -, hbytes⟩ := h.streamStep hfits.1
    have hreceived : receivedChunks (e :: es) = e.received.toList ++ receivedChunks es := by
      cases he : e.received <;> simp [receivedChunks, he]
    calc c.takenBytes (e :: es) ++
          (Machine.run Connection.streamStep c (e :: es)).user.recvBuffer.stored
        = (Connection.streamStep c e).1.takenBytes ++
            (q' ++ ((receivedChunks es).map terminate).flatten) := by
          rw [← ih hnext hfits.2, takenBytes, Machine.outputs_cons, List.flatMap_cons,
            List.append_assoc, Machine.run_cons, takenBytes]
      _ = q ++ ((receivedChunks (e :: es)).map terminate).flatten := by
          rw [← List.append_assoc, hbytes, hreceived, List.map_append, List.flatten_append,
            List.append_assoc]

/-- **No holes.** In every run of turns of `Receive` and reads of the application in which every
chunk, with the NUL that is added to it, leaves room in the receive buffer, and no read asks for
more than is stored, the chunks are stored without a hole. -/
theorem noHoles_of_fits (fdSocket fdEpoll : ℤ) (junk junk' : ℤ → UInt8) {usable : ℕ}
    (husable : 0 < usable) (ctl : ℤ) (es : List StreamEvent)
    (hfits : Machine.Along streamStep Fits (accept fdSocket fdEpoll junk junk' usable ctl) es) :
    (accept fdSocket fdEpoll junk junk' usable ctl).NoHoles es := by
  have h : (accept fdSocket fdEpoll junk junk' usable ctl).Stores [] := by
    refine ⟨by simp [accept], ?_⟩
    simpa [accept] using Holds.new junk husable
  have hchunks := h.chunks_eq hfits
  have hstored : (accept fdSocket fdEpoll junk junk' usable ctl).storedChunks es =
      receivedChunks es := by
    rw [storedChunks, hchunks]
    simp [List.filter_map, Function.comp_def]
  refine ⟨?_, ?_, ?_⟩
  · rw [hstored]
  · rw [hchunks, List.pairwise_map]
    exact List.pairwise_of_forall (fun _ _ _ => rfl)
  · rw [hstored, h.taken_append_stored hfits, List.nil_append]

/-- Two chunks around a read, in a buffer with room for one of them. -/
theorem noHoles_reading_between :
    (accept 5 4 (fun _ => 1) (fun _ => 0) 8 0).NoHoles
      [.recv (.data [97, 98, 99, 100]) 0, .recv .error 0, .read [], .recv (.data [101, 102, 103]) 0,
        .readInto 2, .readAll []] :=
  noHoles_of_fits 5 4 _ _ (by decide) 0 _ (by decide +kernel)

/-- In a buffer of the size that the server uses four full chunks are stored, one of a hundred bytes
is dropped, and one of three bytes is stored after it. -/
theorem exists_hole :
    ¬ ∀ es, (accept 5 4 (fun _ => 0) (fun _ => 0) 4104 0).NoHoles es := by
  intro h
  have hafter := (h [.recv (.data (List.replicate 1024 97)) 0,
    .recv (.data (List.replicate 1024 97)) 0, .recv (.data (List.replicate 1024 97)) 0,
    .recv (.data (List.replicate 1024 97)) 0, .recv (.data (List.replicate 100 98)) 0,
    .recv (.data [111, 107, 0]) 0]).never_after
  revert hafter
  decide +kernel

end Connection

end CodeTest.Net
