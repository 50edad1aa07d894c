import CodeTest.Foundations.Machine
import Mathlib.Tactic

/-!
# A reactor with one slot for a descriptor

`reactor_thread.c`. The array `events` of the reactor has a slot for every descriptor below its
size, with the callback to run and the buffer of the connection. The functions index the array by
the descriptor and the buffer by the number of bytes received. Every such access is checked here,
and a function has no result where an index is out of range.

The process has a set of open descriptors, and `accept` gives the lowest one that is not in it. What
else a system call answers is an argument. `epoll_ctl` plays no part: its result is only handed back
to callers that do not look at it. The field `arg` of a slot is the reactor itself, and
`last_active` is not used.
-/

namespace CodeTest.Nty

/-- `MAX_EPOLL_EVENTS`, the size of the array of slots. -/
def maxEpollEvents : ℕ := 1024

/-- `MAX_BUFFER_SIZE`. -/
def maxBufferSize : ℕ := 4096

inductive Callback
  | acceptCallback
  | recvCallback
  | sendCallback
deriving DecidableEq

/-- What a slot waits for. -/
inductive Epoll
  | epollin
  | epollout
deriving DecidableEq

/-- `struct ntyevent`. A slot that was never set has no callback. -/
structure NtyEvent where
  fd : ℕ
  events : Epoll
  callback : Option Callback
  status : ℕ
  buffer : ℕ → UInt8
  length : ℕ

namespace NtyEvent

/-- `nty_event_set`. The arguments pass its tests: no number is negative and no pointer null. -/
def ntyEventSet (ev : NtyEvent) (fd : ℕ) (event : Epoll) (length status : ℕ)
    (callback : Callback) : NtyEvent :=
  { ev with fd, events := event, callback := some callback, status, length }

/-- `nty_event_add`. -/
def ntyEventAdd (ev : NtyEvent) : NtyEvent := if ev.status = 0 then { ev with status := 1 } else ev

/-- `nty_event_del`. -/
def ntyEventDel (ev : NtyEvent) : NtyEvent := if ev.status ≠ 1 then ev else { ev with status := 0 }

/-- The bytes that `recv` puts at the start of the buffer. -/
def received (ev : NtyEvent) (bytes : List UInt8) : NtyEvent :=
  { ev with buffer := fun i => bytes.getD i (ev.buffer i) }

/-- `ev->buffer[i] = b`. -/
def setBuffer (ev : NtyEvent) (i : ℕ) (b : UInt8) : Option NtyEvent :=
  if i < maxBufferSize then some { ev with buffer := Function.update ev.buffer i b } else none

end NtyEvent

open NtyEvent

/-- The slots of `struct ntyreactor`, with the open descriptors of the process and the bytes that
the kernel has taken for each. -/
structure NtyReactor where
  events : ℕ → NtyEvent
  opened : Finset ℕ
  sent : ℕ → List UInt8

/-- The lowest descriptor that is not open. -/
def leastUnused (opened : Finset ℕ) : ℕ := Nat.find (Infinite.exists_notMem_finset opened)

namespace NtyReactor

/-- The reactor before the listener is added. The slots hold junk apart from their status. -/
def init (junk : ℕ → NtyEvent) (opened : Finset ℕ) : NtyReactor :=
  { events := fun k => { junk k with callback := none, status := 0 }, opened, sent := fun _ => [] }

variable (r : NtyReactor)

/-- `reactor->events[fd]`. -/
def event (fd : ℕ) : Option NtyEvent := if fd < maxEpollEvents then some (r.events fd) else none

def setEvent (fd : ℕ) (ev : NtyEvent) : Option NtyReactor :=
  if fd < maxEpollEvents then some { r with events := Function.update r.events fd ev } else none

/-- `close(fd)`. -/
def close (fd : ℕ) : NtyReactor := { r with opened := r.opened.erase fd }

def ntyreactorAddlistener (fd : ℕ) (callback : Callback) : Option NtyReactor := do
  let ev ← r.event fd
  r.setEvent fd (ev.ntyEventSet fd .epollin 0 0 callback).ntyEventAdd

/-- `accept_callback`. The answer is none where `accept` fails, and else that of `fcntl`. -/
def acceptCallback (fd : ℕ) (answer : Option ℤ) : Option NtyReactor := do
  let _ ← r.event fd
  match answer with
  | none => some r
  | some flag =>
    let cliFd := leastUnused r.opened
    let r := { r with opened := insert cliFd r.opened }
    match (List.range maxEpollEvents).find? fun i => (r.events i).status = 0 with
    | none => some r
    | some _ =>
      if flag < 0 then
        some r
      else do
        let ev ← r.event cliFd
        r.setEvent cliFd (ev.ntyEventSet cliFd .epollin 0 0 .recvCallback).ntyEventAdd

/-- `recv_callback`. The answer is none where `recv` fails, and else the bytes received. -/
def recvCallback (fd : ℕ) (answer : Option (List UInt8)) : Option NtyReactor := do
  let ev ← r.event fd
  let ev := ev.ntyEventDel
  match answer with
  | none =>
    let r ← r.setEvent fd ev
    some (r.close ev.fd)
  | some bytes =>
    let rc := bytes.length
    if rc = 0 then do
      let r ← r.setEvent fd ev
      some (r.close ev.fd)
    else do
      let ev ← (ev.received bytes).setBuffer rc 0
      r.setEvent fd (ev.ntyEventSet ev.fd .epollout rc 0 .sendCallback).ntyEventAdd

/-- `send_callback`, where `send` answers `rc`. -/
def sendCallback (fd : ℕ) (rc : ℤ) : Option NtyReactor := do
  let ev ← r.event fd
  if rc > 0 then
    let taken := ((List.range ev.length).map ev.buffer).take rc.toNat
    let r := { r with sent := Function.update r.sent ev.fd (r.sent ev.fd ++ taken) }
    r.setEvent fd (ev.ntyEventDel.ntyEventSet ev.fd .epollin 0 0 .recvCallback).ntyEventAdd
  else
    let r := r.close ev.fd
    r.setEvent fd ev.ntyEventDel

end NtyReactor

/-- One of the two tests of `ntyreactor_run` on a notification of `epoll_wait`: the slot that its
pointer is to, the event tested for, and what the system calls answer if the callback is run. -/
structure Ready where
  slot : ℕ
  flag : Epoll
  accept : Option ℤ
  recv : Option (List UInt8)
  send : ℤ
deriving DecidableEq

/-- The test, and the callback. -/
def step (r : NtyReactor) (e : Ready) : Option NtyReactor :=
  let ev := r.events e.slot
  if ev.events = e.flag then
    match ev.callback with
    | none => some r
    | some .acceptCallback => r.acceptCallback ev.fd e.accept
    | some .recvCallback => r.recvCallback ev.fd e.recv
    | some .sendCallback => r.sendCallback ev.fd e.send
  else
    some r

/-- `main` from the created reactor on: the listener is added, and `ntyreactor_run` takes the
notifications. There is no result if an access is out of range. -/
def run (junk : ℕ → NtyEvent) (opened : Finset ℕ) (sockFd : ℕ) (es : List Ready) :
    Option NtyReactor := do
  let r ← (NtyReactor.init junk opened).ntyreactorAddlistener sockFd .acceptCallback
  es.foldlM step r

end CodeTest.Nty
