import CodeTest.Net.Fifo
import CodeTest.Net.Receiving

/-!
# Messages through the loop buffer

The protocol of the loop buffer's clients: a message is written with its NUL, and
`CSocketUser::Read()` takes one message out. The buffer keeps no borders, so writer, scanner and
reader have to agree on them wherever the message lies, also round the end of the block. What is
stored is at every moment the frames of the messages written and not yet read
(`reads_eq_messages`).
-/

namespace CodeTest.Net

open Framing

namespace Connection

/-- A `Write` of a message and its NUL to the receive buffer, or a call of `Read()`. -/
inductive MessageEvent
  | write (message : List UInt8)
  | read (beyond : List UInt8)
  deriving DecidableEq

/-- The result of the `Write`, or the string that `Read()` returns. -/
inductive MessageResult
  | written (ok : Bool)
  | string (bytes : List UInt8)
  deriving DecidableEq

def messageStep : Machine Connection MessageEvent MessageResult
  | c, .write message =>
    (.written (c.user.recvBuffer.write (message ++ [0])).1,
      c.setRecvBuffer (c.user.recvBuffer.write (message ++ [0])).2)
  | c, .read beyond => (.string (c.readString beyond).1, (c.readString beyond).2)

/-- The messages whose `Write` returned true, in the order of the run. -/
def messagesWritten (c : Connection) : List MessageEvent → List (List UInt8)
  | [] => []
  | .write message :: es =>
    if (c.user.recvBuffer.write (message ++ [0])).1 then
      message :: messagesWritten (messageStep c (.write message)).2 es
    else
      messagesWritten (messageStep c (.write message)).2 es
  | .read beyond :: es => messagesWritten (messageStep c (.read beyond)).2 es

/-- The strings that the `Read()`s return, in the order of the run. -/
def stringsRead (c : Connection) : List MessageEvent → List (List UInt8)
  | [] => []
  | .write message :: es => stringsRead (messageStep c (.write message)).2 es
  | .read beyond :: es => (c.readString beyond).1 :: stringsRead (c.readString beyond).2 es

/-- The message is free of NUL and does not fill the buffer to its last byte. `Read()` is called
only while bytes are stored. -/
def Proper (c : Connection) : MessageEvent → Prop
  | .write message => 0 ∉ message ∧ LeavesRoom c.user.recvBuffer (.write (message ++ [0]))
  | .read _ => 0 < c.user.recvBuffer.getReadableSize

/-- `Read()` takes exactly the bytes of the string it returns, and a NUL. -/
def TakesMessage (c : Connection) : MessageEvent → Prop
  | .write _ => True
  | .read beyond =>
    c.user.recvBuffer.stored =
      (c.readString beyond).1 ++ 0 :: (c.readString beyond).2.user.recvBuffer.stored

instance (c : Connection) : ∀ e, Decidable (Proper c e)
  | .write message => inferInstanceAs (Decidable
      (0 ∉ message ∧ LeavesRoom c.user.recvBuffer (.write (message ++ [0]))))
  | .read _ => inferInstanceAs (Decidable (0 < c.user.recvBuffer.getReadableSize))

variable {c : Connection}

/-- The frames of the messages `ms` are stored: a message written joins them, or is refused. -/
theorem holds_write_message {ms : List (List UInt8)} {message : List UInt8}
    (h : Holds c.user.recvBuffer (frames 0 ms))
    (hroom : LeavesRoom c.user.recvBuffer (.write (message ++ [0]))) :
    Holds (messageStep c (.write message)).2.user.recvBuffer
      (frames 0
        (if (c.user.recvBuffer.write (message ++ [0])).1 then ms ++ [message] else ms)) := by
  have hrep : Represents c.user.recvBuffer.mallocRealSize c.user.recvBuffer (frames 0 ms) :=
    ⟨h, rfl⟩
  have hread : ReadsStored c.user.recvBuffer (.write (message ++ [0])) := trivial
  obtain ⟨hok, hnext, -⟩ := hrep.exec hread hroom
  simp only [CLoopBuffer.exec, Fifo.exec] at hok hnext
  simp only [messageStep, setRecvBuffer]
  split_ifs at hok hnext with hfit
  · rw [BufferResult.written.inj hok, if_pos rfl]
    simpa [frames] using hnext
  · rw [BufferResult.written.inj hok, if_neg Bool.false_ne_true]
    exact hnext

/-- While something is stored, `Read()` returns the first message and takes its frame. -/
theorem holds_read_message {ms : List (List UInt8)} (hms : ∀ m ∈ ms, 0 ∉ m)
    (h : Holds c.user.recvBuffer (frames 0 ms)) (hsome : 0 < c.user.recvBuffer.getReadableSize)
    (beyond : List UInt8) :
    ∃ ms', ms = (c.readString beyond).1 :: ms' ∧
      Holds (c.readString beyond).2.user.recvBuffer (frames 0 ms') := by
  cases ms with
  | nil =>
    rw [h.getReadableSize] at hsome
    exact absurd hsome (lt_irrefl _)
  | cons m ms =>
    rw [frames_cons] at h
    obtain ⟨hout, hnext⟩ := holds_readString_frame (hms m (by simp)) h beyond
    exact ⟨ms, by rw [hout], hnext⟩

/-- From a buffer that stores the frames of `ms`, the messages of `ms` and those written during the
run are the strings read followed by the messages whose frames are stored at the end. -/
theorem holds_run_messages {ms : List (List UInt8)} (hms : ∀ m ∈ ms, 0 ∉ m)
    (h : Holds c.user.recvBuffer (frames 0 ms)) {es : List MessageEvent}
    (hrun : Machine.Along messageStep Proper c es) :
    Machine.Along messageStep TakesMessage c es ∧
      ∃ rest, ms ++ c.messagesWritten es = c.stringsRead es ++ rest ∧
        Holds (Machine.run messageStep c es).user.recvBuffer (frames 0 rest) := by
  induction es generalizing c ms with
  | nil => exact ⟨trivial, ms, by simp [messagesWritten, stringsRead], h⟩
  | cons e es ih =>
    obtain ⟨hproper, hrest⟩ := hrun
    cases e with
    | write message =>
      obtain ⟨hfree, hroom⟩ := hproper
      have hnext := holds_write_message h hroom
      rw [messagesWritten, stringsRead]
      split_ifs at hnext ⊢ with hok
      · have hms' : ∀ m ∈ ms ++ [message], 0 ∉ m := by
          simpa [or_imp, forall_and] using ⟨hms, hfree⟩
        obtain ⟨htakes, rest, heq, hend⟩ := ih hms' hnext hrest
        exact ⟨⟨trivial, htakes⟩, rest, by rw [← heq, List.append_assoc]; rfl, hend⟩
      · obtain ⟨htakes, rest, heq, hend⟩ := ih hms hnext hrest
        exact ⟨⟨trivial, htakes⟩, rest, heq, hend⟩
    | read beyond =>
      obtain ⟨ms', hcons, hnext⟩ := holds_read_message hms h hproper beyond
      have hms' : ∀ m ∈ ms', 0 ∉ m := fun m hm => hms m (by rw [hcons]; exact .tail _ hm)
      obtain ⟨htakes, rest, heq, hend⟩ := ih hms' hnext hrest
      refine ⟨⟨?_, htakes⟩, rest, ?_, hend⟩
      · rw [TakesMessage, h.stored, hnext.stored, ← frames_cons, ← hcons]
      · rw [stringsRead, messagesWritten, hcons, List.cons_append, List.cons_append]
        exact congrArg _ heq

end Connection

open Connection

/-- **Every `Read()` returns the next message.** From a fresh receive buffer, along every sequence
of messages free of NUL, each written with its NUL, and of `Read()`s while something is stored, in
which the buffer is never filled to its last byte: every `Read()` takes exactly the bytes of its
string and a NUL, the strings read are the first messages written, in order, and what is stored in
the end are the frames of the others. -/
theorem reads_eq_messages (c : Connection) (junk : ℤ → UInt8) {usable : ℕ} (husable : 0 < usable)
    (hfresh : c.user.recvBuffer = .new junk usable) (es : List MessageEvent)
    (hrun : Machine.Along messageStep Proper c es) :
    Machine.Along messageStep TakesMessage c es ∧
      ∃ rest, c.messagesWritten es = c.stringsRead es ++ rest ∧
        (Machine.run messageStep c es).user.recvBuffer.stored = frames 0 rest := by
  have h : Holds c.user.recvBuffer (frames 0 []) := by
    rw [hfresh]
    exact Holds.new junk husable
  have hnone : ∀ m ∈ ([] : List (List UInt8)), (0 : UInt8) ∉ m := fun m hm =>
    absurd hm List.not_mem_nil
  obtain ⟨htakes, rest, heq, hend⟩ := holds_run_messages hnone h hrun
  exact ⟨htakes, rest, heq, hend.stored⟩

/-- In a block of eight bytes: the second message is empty and the third goes round the end. -/
theorem reads_eq_messages_round :
    Machine.Along messageStep TakesMessage (accept 5 4 (fun _ => 1) (fun _ => 0) 8 0)
        [.write [104, 105], .write [], .read [], .write [97, 98, 99, 100], .read [], .read []] ∧
      ∃ rest, (accept 5 4 (fun _ => 1) (fun _ => 0) 8 0).messagesWritten
          [.write [104, 105], .write [], .read [], .write [97, 98, 99, 100], .read [], .read []] =
        (accept 5 4 (fun _ => 1) (fun _ => 0) 8 0).stringsRead
          [.write [104, 105], .write [], .read [], .write [97, 98, 99, 100], .read [], .read []] ++
          rest ∧
        (Machine.run messageStep (accept 5 4 (fun _ => 1) (fun _ => 0) 8 0)
          [.write [104, 105], .write [], .read [], .write [97, 98, 99, 100], .read [],
            .read []]).user.recvBuffer.stored = frames 0 rest :=
  reads_eq_messages _ (fun _ => 1) (by decide) rfl _ (by decide +kernel)

end CodeTest.Net
