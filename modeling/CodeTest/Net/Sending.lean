import CodeTest.Foundations.Machine
import CodeTest.Net.SocketUser
import CodeTest.Net.Stored

/-!
# Sending on one connection

A session is a connection with the payloads, each with its NUL, for which `Send` has returned true.
The bytes are in order when those the kernel has accepted, followed by those held in the send
buffer, are these payloads (`InOrder`), and when nothing reaches the kernel while earlier bytes are
held (`NotOvertaking`). `sends_in_order_iff` says for which runs that is so. The code loses or
reorders bytes in three ways: a partial `send` counts as a complete one; `Writeable` sets the flag
and sends nothing of the buffer, so that the next payload goes to the kernel before the bytes that
are held; and a payload that fills the send buffer to its last byte is lost.
-/

namespace CodeTest.Net

/-- What happens on a connection: a `Send`, with the answers of the kernel's `send` and of
`epoll_ctl`, or an `EPOLLOUT` notification. -/
inductive SendEvent
  | send (payload : List UInt8) (ret ctl : ℤ)
  | writeable (ctl : ℤ)
  deriving DecidableEq

/-- A connection and the payloads, with their NULs, for which `Send` has returned true. -/
structure Session where
  conn : Connection
  taken : List UInt8

namespace Session

/-- One event. The answer is the result of `Send`. -/
def step : Machine Session SendEvent (Option Bool)
  | s, .send payload ret ctl =>
    let r := s.conn.send payload ret ctl
    (some r.1, { conn := r.2, taken := if r.1 then s.taken ++ (payload ++ [0]) else s.taken })
  | s, .writeable ctl => (none, { s with conn := s.conn.writeable ctl })

/-- The accepted bytes and the held bytes are the payloads taken, in order. -/
def InOrder (s : Session) : Prop :=
  s.conn.accepted ++ s.conn.user.sendBuffer.stored = s.taken

/-- The event brings bytes to the kernel only when none are held. -/
def NotOvertaking (s : Session) (e : SendEvent) : Prop :=
  (step s e).2.conn.accepted ≠ s.conn.accepted → s.conn.user.sendBuffer.stored = []

/-- The kernel's `send` reports an error, or takes at least one byte and at most all. -/
def KernelAnswers (_ : Session) : SendEvent → Prop
  | .send payload ret _ => ret < 0 ∨ (1 ≤ ret ∧ ret ≤ payload.length + 1)
  | .writeable _ => True

/-- The condition on a `Send`: if it reaches the kernel, then nothing is held and the kernel takes
all of it; if it goes to the send buffer, then it does not ask for exactly the room that is left. -/
def Careful (s : Session) : SendEvent → Prop
  | .send payload ret _ =>
    if s.conn.user.nt.writable ∧ 0 ≤ ret then
      s.conn.user.sendBuffer.getReadableSize = 0 ∧ ret = payload.length + 1
    else
      payload.length + 1 ≠ s.conn.user.sendBuffer.getWriteableSize
  | .writeable _ => True

instance (s : Session) : ∀ e, Decidable (KernelAnswers s e)
  | .send payload ret _ =>
    inferInstanceAs (Decidable (ret < 0 ∨ (1 ≤ ret ∧ ret ≤ (payload.length : ℤ) + 1)))
  | .writeable _ => inferInstanceAs (Decidable True)

instance (s : Session) : ∀ e, Decidable (Careful s e)
  | .send payload ret _ => inferInstanceAs (Decidable (if s.conn.user.nt.writable ∧ 0 ≤ ret then
      s.conn.user.sendBuffer.getReadableSize = 0 ∧ ret = (payload.length : ℤ) + 1
    else (payload.length : ℤ) + 1 ≠ s.conn.user.sendBuffer.getWriteableSize))
  | .writeable _ => inferInstanceAs (Decidable True)

/-- The send buffer stores the payloads taken that the kernel has not accepted. -/
def Good (s : Session) : Prop :=
  ∃ q, Holds s.conn.user.sendBuffer q ∧ s.conn.accepted ++ q = s.taken

variable {s : Session} {e : SendEvent}

theorem Good.inOrder (h : Good s) : InOrder s := by
  obtain ⟨q, hq, htaken⟩ := h
  rw [InOrder, hq.stored, htaken]

/-- A `Send` that reaches the kernel. -/
theorem step_direct {payload : List UInt8} {ret ctl : ℤ}
    (h : s.conn.user.nt.writable ∧ 0 ≤ ret) :
    (step s (.send payload ret ctl)).2 =
      { conn := { s.conn with accepted := s.conn.accepted ++ (payload ++ [0]).take ret.toNat },
        taken := s.taken ++ (payload ++ [0]) } := by
  simp only [step, Connection.send_eq, if_pos h, if_true]

/-- A `Send` that goes to the send buffer. -/
theorem step_queue {payload : List UInt8} {ret ctl : ℤ}
    (h : ¬ (s.conn.user.nt.writable ∧ 0 ≤ ret)) :
    (step s (.send payload ret ctl)).2 =
      { conn := (s.conn.queue (payload ++ [0]) ctl).2,
        taken := if (s.conn.user.sendBuffer.write (payload ++ [0])).1 then
            s.taken ++ (payload ++ [0]) else s.taken } := by
  simp only [step, Connection.send_eq, if_neg h, Connection.queue_fst]

/-- A careful event keeps the session good and does not overtake. -/
theorem Good.step (h : Good s) (hc : Careful s e) :
    Good (Session.step s e).2 ∧ NotOvertaking s e := by
  obtain ⟨q, hq, htaken⟩ := h
  cases e with
  | writeable ctl =>
    refine ⟨⟨q, ?_, ?_⟩, ?_⟩
    · simpa only [Session.step, Connection.writeable_sendBuffer] using hq
    · simpa only [Session.step, Connection.writeable_accepted] using htaken
    · intro hne
      exact absurd (Connection.writeable_accepted _ _) hne
  | send payload ret ctl =>
    by_cases hdirect : s.conn.user.nt.writable ∧ 0 ≤ ret
    · rw [NotOvertaking, step_direct hdirect]
      obtain ⟨hempty, hall⟩ : s.conn.user.sendBuffer.getReadableSize = 0 ∧
          ret = payload.length + 1 := by simpa only [Careful, if_pos hdirect] using hc
      have hlen := hq.getReadableSize
      obtain rfl : q = [] := List.length_eq_zero_iff.mp (by omega)
      refine ⟨⟨[], hq, ?_⟩, fun _ => hq.stored⟩
      have htake : (payload ++ [0]).take ret.toNat = payload ++ [0] :=
        List.take_of_length_le (by rw [List.length_append, List.length_singleton]; omega)
      simp only [htake, ← htaken, List.append_nil]
    · rw [NotOvertaking, step_queue hdirect]
      refine ⟨?_, fun hne => absurd (Connection.queue_accepted _ _ _) hne⟩
      have hroom := hq.getWriteableSize
      have hne : (payload.length : ℤ) + 1 ≠ s.conn.user.sendBuffer.getWriteableSize := by
        simpa only [Careful, if_neg hdirect] using hc
      simp only [Good, Connection.queue_sendBuffer, Connection.queue_accepted]
      by_cases hfit : q.length + (payload ++ [0]).length < s.conn.user.sendBuffer.mallocRealSize
      · obtain ⟨hok, hstored, -⟩ := hq.write hfit
        refine ⟨_, hstored, ?_⟩
        rw [if_pos hok, ← List.append_assoc, htaken]
      · have hbig : s.conn.user.sendBuffer.mallocRealSize < q.length + (payload ++ [0]).length := by
          rw [List.length_append, List.length_singleton] at hfit ⊢
          omega
        rw [hq.write_refused hbig, if_neg Bool.false_ne_true]
        exact ⟨q, hq, htaken⟩

/-- An event that is not careful overtakes, or leaves bytes lost. -/
theorem Good.not_careful (h : Good s) (hk : KernelAnswers s e) (hc : ¬ Careful s e) :
    ¬ (NotOvertaking s e ∧ InOrder (Session.step s e).2) := by
  obtain ⟨q, hq, htaken⟩ := h
  rintro ⟨hover, horder⟩
  cases e with
  | writeable ctl => exact hc trivial
  | send payload ret ctl =>
    by_cases hdirect : s.conn.user.nt.writable ∧ 0 ≤ ret
    · -- the payload reaches the kernel, so nothing is held and bytes are missing
      rw [NotOvertaking, step_direct hdirect] at hover
      rw [InOrder, step_direct hdirect] at horder
      simp only [KernelAnswers] at hk
      have hsome : (payload ++ [0]).take ret.toNat ≠ [] := by
        rw [← List.length_pos_iff, List.length_take, List.length_append, List.length_singleton]
        omega
      have hnil : q = [] := by
        rw [← hq.stored]
        refine hover fun heq => hsome ?_
        simpa using heq
      subst hnil
      have hshort : ret ≠ payload.length + 1 := by
        intro hall
        refine hc ?_
        simp only [Careful, if_pos hdirect]
        exact ⟨by rw [hq.getReadableSize, List.length_nil, Nat.cast_zero], hall⟩
      have hlen := congrArg List.length horder
      simp only [hq.stored, ← htaken, List.append_nil, List.length_append, List.length_take,
        List.length_singleton] at hlen
      omega
    · -- the payload fills the buffer, which then counts as empty
      rw [InOrder, step_queue hdirect] at horder
      simp only [Careful, if_neg hdirect, not_not, hq.getWriteableSize] at hc
      have hne : payload ++ [0] ≠ [] := by simp
      obtain ⟨hok, -, hlost⟩ := hq.write_full hne
        (by rw [List.length_append, List.length_singleton]; omega)
      simp only [Connection.queue_sendBuffer, Connection.queue_accepted, hok, hlost, if_true,
        ← htaken] at horder
      have hlen := congrArg List.length horder
      simp only [List.length_append, List.length_singleton, List.length_nil] at hlen
      omega

/-- From a good session, the bytes of a run are in order exactly when its events are careful. -/
theorem Good.run_iff (h : Good s) {es : List SendEvent}
    (hk : Machine.Along Session.step KernelAnswers s es) :
    (Machine.Along Session.step (fun s e => InOrder s ∧ NotOvertaking s e) s es ∧
        InOrder (Machine.run Session.step s es)) ↔
      Machine.Along Session.step Careful s es := by
  induction es generalizing s with
  | nil => exact iff_of_true ⟨trivial, h.inOrder⟩ trivial
  | cons e es ih =>
    simp only [Machine.along_cons, Machine.run_cons] at hk ⊢
    by_cases hc : Careful s e
    · obtain ⟨h', hover⟩ := h.step hc
      rw [and_assoc, ih h' hk.2]
      exact and_congr_left fun _ => iff_of_true ⟨h.inOrder, hover⟩ hc
    · refine iff_of_false ?_ fun hall => hc hall.1
      rintro ⟨⟨⟨-, hover⟩, halong⟩, hlast⟩
      refine h.not_careful hk.1 hc ⟨hover, ?_⟩
      -- the state after `e` is in order: it is the last one, or the next event meets it
      cases es with
      | nil => exact hlast
      | cons e' es' => exact halong.1.1

/-- A freshly accepted connection has taken no payload. -/
def start (fdSocket fdEpoll : ℤ) (junk junk' : ℤ → UInt8) (usable : ℕ) (ctl : ℤ) : Session :=
  { conn := .accept fdSocket fdEpoll junk junk' usable ctl, taken := [] }

theorem good_start (fdSocket fdEpoll : ℤ) (junk junk' : ℤ → UInt8) {usable : ℕ}
    (h : 0 < usable) (ctl : ℤ) : Good (start fdSocket fdEpoll junk junk' usable ctl) := by
  refine ⟨[], ?_, ?_⟩
  · simpa [start, Connection.accept] using Holds.new junk' h
  · simp [start, Connection.accept]

end Session

open Session

end CodeTest.Net
