import CodeTest.Reactor.Revent

/-!
# The echo server

The callbacks of `reactor_thread2.c` and the handling of notifications in `reactor_run`. A client
has an event for reading. What is received goes into a new event for writing, and is sent back when
the descriptor is writable. The bytes received from a client, and those handed to the kernel for it,
are recorded for every descriptor.

The results of `recv` and `send` are inputs. `reactor_run` first handles a notification as readable
and then as writable, looking up the list anew, so a notification of both kinds is two events here.
-/

namespace CodeTest

/-- The result of `recv`: bytes, nothing for now (`EAGAIN`), or the end or an error. -/
inductive Recv
  | data (chunk : List UInt8)
  | again
  | failed

/-- The result of `send`: the number of bytes taken, `EPIPE`, or another error. -/
inductive Send
  | sent (n : ℕ)
  | epipe
  | failed

/-- A reactor, with the bytes received and sent for every descriptor. -/
structure EchoServer where
  reactor : Reactor
  received : ℕ → List UInt8
  sent : ℕ → List UInt8

namespace Reactor

/-- The loops of `reactor_run`: the first node from `p` on that waits for one of the events. -/
def findEvent (mem : Memory Revent) (mask : ℕ) : ℕ → Option Addr → Option (Option Addr)
  | _, none => some none
  | 0, some _ => none
  | fuel + 1, some p => do
    let ev ← mem.lookup p
    if ev.events &&& mask ≠ 0 then some (some p) else findEvent mem mask fuel ev.next

/-- The loop that removes all events of a descriptor. -/
def removeEvents (fd : ℕ) : ℕ → Reactor → Option Reactor
  | fuel, r =>
    match r.events fd, fuel with
    | none, _ => some r
    | some _, 0 => none
    | some tmpev, fuel + 1 => do
      let (_, r) ← r.reventDel tmpev
      removeEvents fd fuel { r with mem := r.mem.erase tmpev }

/-- `close`: the kernel forgets the descriptor. -/
def close (r : Reactor) (fd : ℕ) : Reactor := { r with epoll := r.epoll.erase fd }

/-- A node is allocated, set and added. If this fails it is freed. -/
def addNew (malloc : Allocator Revent) (r : Reactor) (fd event length : ℕ) (callback : Callback)
    (buffer : List UInt8) : Option (Bool × Reactor) := do
  let p := malloc.fresh r.mem
  let ev := reventSet { zeroed with buffer } fd event length 0 callback
  let (ok, r) ← reventAdd { r with mem := r.mem.insert p ev } p
  return (ok, if ok then r else { r with mem := r.mem.erase p })

end Reactor

/-- The string at the start of a buffer, as `strcpy` copies it. -/
def cString (buffer : List UInt8) : List UInt8 := buffer.takeWhile (· ≠ 0)

namespace EchoServer

variable (malloc : Allocator Revent) (s : EchoServer)

def init : EchoServer := ⟨.init, fun _ => [], fun _ => []⟩

/-- `accept_callback`, for the descriptor of the new client. -/
def acceptCallback (cliFd : ℕ) : Option EchoServer := do
  let (ok, reactor) ← s.reactor.addNew malloc cliFd epollIn 0 .recvCallback []
  return {
    reactor := if ok then reactor else reactor.close cliFd
    received := Function.update s.received cliFd []
    sent := Function.update s.sent cliFd [] }

/-- `recv_callback`, for the node `ev`. The byte that ends the string is written after the bytes
received, and must be in the buffer. -/
def recvCallback (fd : ℕ) (ev : Addr) : Recv → Option EchoServer
  | .again => some s
  | .failed => do
    let r ← s.reactor.removeEvents fd s.reactor.mem.keys.length
    let r := r.close fd
    return { s with reactor := { r with events := Function.update r.events fd none } }
  | .data chunk => do
    if maxBufferSize ≤ chunk.length then none
    let mem ← s.reactor.mem.write ev fun e =>
      { e with buffer := chunk ++ 0 :: e.buffer.drop (chunk.length + 1) }
    let e ← mem.lookup ev
    let (_, reactor) ← { s.reactor with mem }.addNew malloc fd epollOut chunk.length .sendCallback
      (cString e.buffer)
    return { s with
      reactor, received := Function.update s.received fd (s.received fd ++ chunk) }

/-- `send_callback`, for the node `ev`. -/
def sendCallback (fd : ℕ) (ev : Addr) (result : Send) : Option EchoServer := do
  let e ← s.reactor.mem.lookup ev
  let s ← match result with
    | .sent n => do
      let (_, r) ← s.reactor.reventDel ev
      some { s with
        reactor := { r with mem := r.mem.erase ev }
        sent := Function.update s.sent fd (s.sent fd ++ e.buffer.takeD n 0) }
    | .epipe => do
      let r ← s.reactor.removeEvents fd s.reactor.mem.keys.length
      some { s with reactor := r }
    | .failed => do
      let (_, r) ← s.reactor.reventDel ev
      some { s with reactor := { r with mem := r.mem.erase ev } }
  return if s.reactor.events fd = none then { s with reactor := s.reactor.close fd } else s

inductive Event
  /-- The listening socket is readable, and there is a new client. -/
  | accept (cliFd : ℕ)
  | readable (fd : ℕ) (result : Recv)
  | writable (fd : ℕ) (result : Send)

/-- What `reactor_run` does. The callback of a node that waits for reading is `recv_callback`, that
of a node that waits for writing is `send_callback`. -/
def step : Event → Option EchoServer
  | .accept cliFd => s.acceptCallback malloc cliFd
  | .readable fd result => do
    match ← Reactor.findEvent s.reactor.mem epollIn s.reactor.mem.keys.length
      (s.reactor.events fd) with
    | none => some s
    | some ev => s.recvCallback malloc fd ev result
  | .writable fd result => do
    match ← Reactor.findEvent s.reactor.mem epollOut s.reactor.mem.keys.length
      (s.reactor.events fd) with
    | none => some s
    | some ev => s.sendCallback fd ev result

end EchoServer

end CodeTest
