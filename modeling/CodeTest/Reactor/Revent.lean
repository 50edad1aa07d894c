import CodeTest.Foundations.Machine
import CodeTest.Foundations.Memory
import Mathlib.Tactic

/-!
# The events of a reactor

`reactor_thread2.c`. An event of the reactor is a node that belongs to a file descriptor and says
what to wait for on it. The nodes of a descriptor form a doubly linked list, to which the array
`events` of the reactor holds the head. The kernel has one registration for a descriptor, with a
mask and a pointer, and `revent_add` and `revent_del` keep the two in step.

Nodes are allocated on the heap. A function has no result where the code leaves what the language
defines: if it uses memory that is not allocated, if the index of the array is out of range, or if a
loop over a list does not end. The field `arg` of a node is the reactor itself, and `last_active` is
not used.
-/

namespace CodeTest

/-- `MAX_EPOLL_EVENTS`, the size of the array of lists. -/
def maxEpollEvents : ℕ := 1024

/-- `MAX_BUFFER_SIZE`. -/
def maxBufferSize : ℕ := 4096

/-- `EPOLLIN`. -/
def epollIn : ℕ := 1

/-- `EPOLLOUT`. -/
def epollOut : ℕ := 4

inductive Callback
  | acceptCallback
  | recvCallback
  | sendCallback
deriving DecidableEq

/-- A node. The bytes of the buffer after those that are listed are zero. -/
structure Revent where
  fd : ℕ
  events : ℕ
  callback : Callback
  status : ℕ
  buffer : List UInt8
  length : ℕ
  prev : Option Addr
  next : Option Addr
deriving DecidableEq

/-! ## The kernel -/

/-- A registration: what is waited for, and the pointer that comes with a notification. -/
structure EpollEvent where
  events : ℕ
  ptr : Addr
deriving DecidableEq

inductive EpollOp
  | add
  | mod
  | del

inductive Errno
  | exist
  | noent

/-- `epoll_ctl`. It fails if a registered descriptor is added, or if one that is not registered is
changed. -/
def epollCtl (epoll : Table ℕ EpollEvent) (op : EpollOp) (fd : ℕ) (ev : EpollEvent) :
    Except Errno (Table ℕ EpollEvent) :=
  match op, epoll.lookup fd with
  | .add, none => .ok (epoll.insert fd ev)
  | .add, some _ => .error .exist
  | .mod, none => .error .noent
  | .mod, some _ => .ok (epoll.insert fd ev)
  | .del, none => .error .noent
  | .del, some _ => .ok (epoll.erase fd)

/-! ## The reactor -/

/-- The heap, the array of the reactor and the registrations of its `epoll_fd`. -/
structure Reactor where
  mem : Memory Revent
  events : ℕ → Option Addr
  epoll : Table ℕ EpollEvent

namespace Reactor

/-- `reactor_init`. -/
def init : Reactor := { mem := ∅, events := fun _ => none, epoll := ∅ }

/-- `revent_set`. -/
def reventSet (ev : Revent) (fd event length status : ℕ) (callback : Callback) : Revent :=
  { ev with fd, events := event, callback, status, length, next := none, prev := none }

/-- A node that is allocated and filled with zeros. -/
def zeroed : Revent := ⟨0, 0, .acceptCallback, 0, [], 0, none, none⟩

/-- The loops that collect the masks of a list, from the pointer `p` on. -/
def orEvents (mem : Memory Revent) : ℕ → Option Addr → ℕ → Option ℕ
  | _, none, mask => some mask
  | 0, some _, _ => none
  | fuel + 1, some p, mask => do
    let e ← mem.lookup p
    orEvents mem fuel e.next (mask ||| e.events)

/-- The first part of `revent_add`: the node is put at the head of its list. -/
def pushEvent (r : Reactor) (p : Addr) (fd : ℕ) : Option Reactor := do
  let mem ← match r.events fd with
    | none => some r.mem
    | some head => do
      let mem ← r.mem.write head fun e => { e with prev := some p }
      mem.write p fun e => { e with next := some head, prev := none }
  let mem ← mem.write p fun e => { e with status := 1 }
  return { r with mem, events := Function.update r.events fd (some p) }

/-- The end of `revent_add` after `epoll_ctl` has failed. -/
def popEvent (r : Reactor) (p : Addr) (fd : ℕ) : Option Reactor := do
  let head ← r.events fd
  let e ← r.mem.lookup head
  let mem ← r.mem.write p fun e => { e with status := 0 }
  return { r with mem, events := Function.update r.events fd e.next }

/-- `revent_add`, and whether it returned 0. -/
def reventAdd (r : Reactor) (p : Addr) : Option (Bool × Reactor) := do
  let ev ← r.mem.lookup p
  if ev.status ≠ 0 then return (false, r)
  if maxEpollEvents ≤ ev.fd then none
  let r ← r.pushEvent p ev.fd
  match epollCtl r.epoll .add ev.fd ⟨ev.events, p⟩ with
  | .ok epoll => return (true, { r with epoll })
  | .error .exist =>
    let mask ← orEvents r.mem r.mem.keys.length (some p) 0
    match epollCtl r.epoll .mod ev.fd ⟨mask, p⟩ with
    | .ok epoll => return (true, { r with epoll })
    | .error _ => return (false, ← r.popEvent p ev.fd)
  | .error _ => return (false, ← r.popEvent p ev.fd)

/-- The first part of `revent_del`: the node is taken out of its list. -/
def unlinkEvent (r : Reactor) (p : Addr) (ev : Revent) : Option Reactor := do
  let events := if r.events ev.fd = some p then Function.update r.events ev.fd ev.next else r.events
  let mem ← r.mem.writeThrough ev.prev fun e => { e with next := ev.next }
  let mem ← mem.writeThrough ev.next fun e => { e with prev := ev.prev }
  let mem ← mem.write p fun e => { e with status := 0 }
  return { r with mem, events }

/-- `revent_del`, and whether it returned 0. -/
def reventDel (r : Reactor) (p : Addr) : Option (Bool × Reactor) := do
  let ev ← r.mem.lookup p
  if ev.status ≠ 1 then return (false, r)
  if maxEpollEvents ≤ ev.fd then none
  let r ← r.unlinkEvent p ev
  let eventsType ← orEvents r.mem r.mem.keys.length (r.events ev.fd) 0
  let result :=
    match r.events ev.fd with
    | some head =>
      if eventsType ≠ 0 then epollCtl r.epoll .mod ev.fd ⟨eventsType, head⟩
      else epollCtl r.epoll .del ev.fd ⟨0, p⟩
    | none => epollCtl r.epoll .del ev.fd ⟨0, p⟩
  match result with
  | .ok epoll => return (true, { r with epoll })
  | .error _ => return (false, r)

/-! ## Sequences of operations -/

inductive Op
  /-- A node is set with `revent_set`, and allocated before if it is not, and then added. -/
  | add (p : Addr) (fd event length : ℕ) (callback : Callback)
  | del (p : Addr)
  | free (p : Addr)

def step (r : Reactor) : Op → Option Reactor
  | .add p fd event length callback =>
    let ev := reventSet ((r.mem.lookup p).getD zeroed) fd event length 0 callback
    (reventAdd { r with mem := r.mem.insert p ev } p).map Prod.snd
  | .del p => (r.reventDel p).map Prod.snd
  | .free p => (r.mem.lookup p).map fun _ => { r with mem := r.mem.erase p }

end Reactor

end CodeTest
