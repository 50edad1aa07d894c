import CodeTest.CppNet.BufferQueue

/-!
# A connected socket of the epoll engine

`RWSocket::Write`, `Send`, `Recv` and `OnDisConnect` of `rw_socket.cpp`, and the `EPOLLOUT` side of
`AddSendEvent` of `epoll_action.cpp`. A `RWSocket` is the object with its `Event`, what the kernel
has registered for its descriptor, and what went over its interfaces: the bytes the kernel has taken
and handed over, and the callbacks run. What a system call answers is an argument of the function
that makes the call; the loops of `Send` and `Recv` take the list of the answers they get, and are
waiting for a call to return when the list ends.

The constructor asks for a pool of blocks of 1024 bytes; here the length of a block is an argument.

Left out are the log, the peer's address, timers, `connect`, and the `EPOLLIN` bits of the event,
which `Read` sets once and nothing clears while the socket is open.
-/

namespace CodeTest.CppNet

/-- `__max_write_cache`. -/
def maxWriteCache : ℕ := 1024 * 1024 * 4

/-- `__linux_read_buff_expand_len`. -/
def linuxReadBuffExpandLen : ℕ := 4096

/-- `__linux_read_buff_expand_max`. -/
def linuxReadBuffExpandMax : ℕ := 65536

/-- `__linux_write_buff_get`. -/
def linuxWriteBuffGet : ℕ := 4096

/-- The error codes that `OnDisConnect` is given here. -/
inductive ErrorCode
  | closed
  | connectBreak
  deriving DecidableEq

/-- What the socket tells the application. -/
inductive Callback
  | onRead (len : UInt32)
  | onWrite (len : UInt32)
  | onDisConnect (err : ErrorCode)
  deriving DecidableEq

/-- How a `writev` ends: the kernel has room for so many bytes and takes what fits, or
`EWOULDBLOCK`, `EAGAIN` or `EINTR`, or `EBADMSG`, or another error. `ctl` is whether the `epoll_ctl`
that follows succeeds. -/
inductive Writev
  | room (n : ℕ)
  | again (ctl : Bool)
  | badMsg (ctl : Bool)
  | error (ctl : Bool)
  deriving DecidableEq

/-- How a `readv` ends: the kernel has these bytes and hands over what the vector has room for, or
`EWOULDBLOCK`, `EAGAIN` or `EINTR`, or another error. `ctl` is whether the `epoll_ctl` that follows
the end of the stream or an error succeeds. -/
inductive Readv
  | data (bytes : List UInt8) (ctl : Bool)
  | again
  | error (ctl : Bool)
  deriving DecidableEq

structure RWSocket where
  writeBuffer : BufferQueue
  readBuffer : BufferQueue
  /-- `_event->GetType() & ET_WRITE` -/
  etWrite : Bool
  /-- `ep_event->events & EPOLLOUT` -/
  epollout : Bool
  /-- the kernel reports `EPOLLOUT` of the descriptor -/
  registered : Bool
  shutdown : Bool
  /-- the bytes that `writev` has taken -/
  sent : List UInt8
  /-- the bytes that `readv` has handed over -/
  received : List UInt8
  callbacks : List Callback

namespace RWSocket

/-- The constructor, with blocks of `blockLength` bytes; `junk` and `junk'` are what the blocks of
the pool hold. -/
def new (blockLength : ℕ) (junk junk' : ℕ → ℤ → UInt8) : RWSocket :=
  { writeBuffer := .new blockLength junk, readBuffer := .new blockLength junk', etWrite := false,
    epollout := false, registered := false, shutdown := false, sent := [], received := [],
    callbacks := [] }

def tell (s : RWSocket) (c : Callback) : RWSocket := { s with callbacks := s.callbacks ++ [c] }

/-- `AddSendEvent(_event)`, where `epoll_ctl` succeeds when `ctl` holds. -/
def addSendEvent (s : RWSocket) (ctl : Bool) : Bool × RWSocket :=
  if s.etWrite then (false, s)
  else
    let s := { s with etWrite := true }
    if s.epollout then (true, s)
    else if ctl then (true, { s with epollout := true, registered := true })
    else (false, { s with epollout := true })

/-- `OnDisConnect(err)` for an error: `DelEvent` clears the event's type when its `epoll_ctl`
succeeds, and the descriptor is closed. -/
def onDisConnect (s : RWSocket) (err : ErrorCode) (ctl : Bool) : RWSocket :=
  let s := if s.shutdown then s else s.tell (.onDisConnect err)
  { s with shutdown := true, etWrite := s.etWrite && !ctl, registered := false }

/-- The loop of `Send` with the answers of its `writev`s; `offSet` bytes were sent before. `none`
when it is waiting for a `writev`. -/
def sendLoop : List Writev → RWSocket → ℕ → Option Bool × RWSocket
  | rets, s, offSet =>
    if s.writeBuffer.canReadLength.toNat > 0 then
      match rets with
      | [] => (none, s)
      | .room n :: rets =>
        let ioVec := s.writeBuffer.getUseMemoryBlock linuxWriteBuffGet
        let bytes := (gather s.writeBuffer.bufferList ioVec).take n
        sendLoop rets { s with
          writeBuffer := (s.writeBuffer.moveReadPt bytes.length).2
          sent := s.sent ++ bytes } (offSet + bytes.length)
      | .again ctl :: _ => (some (s.addSendEvent ctl).1, (s.addSendEvent ctl).2)
      | .badMsg ctl :: _ => (some false, s.onDisConnect .connectBreak ctl)
      | .error ctl :: _ => (some false, s.onDisConnect .closed ctl)
    else (some true, s.tell (.onWrite (UInt32.ofNat offSet)))

def send (s : RWSocket) (rets : List Writev) : Option Bool × RWSocket := sendLoop rets s 0

/-- `Write(src, len)` with `len` the length of `src`: `ctl` is for the `AddSendEvent` of a socket
that cannot send now, `rets` for the `Send` of one that can. -/
def write (s : RWSocket) (src : List UInt8) (ctl : Bool) (rets : List Writev) :
    Option Bool × RWSocket :=
  if s.writeBuffer.canReadLength.toNat > 0 then
    if s.writeBuffer.canReadLength.toNat > maxWriteCache then (some false, s)
    else
      let s := { s with writeBuffer := (s.writeBuffer.write src).2 }
      (some (s.addSendEvent ctl).1, (s.addSendEvent ctl).2)
  else
    { s with writeBuffer := (s.writeBuffer.write src).2 }.send rets

/-- `OnWrite()`, for an `EPOLLOUT` event. -/
def onWrite (s : RWSocket) (rets : List Writev) : Option Bool × RWSocket := s.send rets

/-- The free memory that a round of `Recv` asks for: none beyond what there is in the first one. -/
def expand (needExpend : Bool) (expandBuffLen : ℕ) : ℕ := if needExpend then expandBuffLen else 0

/-- `expand_buff_len` after a round that asked for free memory. -/
def grow (needExpend : Bool) (expandBuffLen : ℕ) : ℕ :=
  if needExpend = true ∧ expandBuffLen < linuxReadBuffExpandMax then expandBuffLen * 2
  else expandBuffLen

/-- The loop of `Recv` with the answers of its `readv`s; `offSet` bytes were read before. A `readv`
that hands over nothing returns 0, which is taken for the end of the stream. -/
def recvLoop : List Readv → RWSocket → ℕ → Bool → UInt32 → Option Bool × RWSocket
  | [], s, _, _, _ => (none, s)
  | ret :: rets, s, expandBuffLen, needExpend, offSet =>
    let (ioVec, q) := s.readBuffer.getFreeMemoryBlock (expand needExpend expandBuffLen)
    let buffLen := vecLength ioVec
    match ret with
    | .again =>
      -- the return value of the failed call is -1
      (some true, { s with readBuffer := (q.moveWritePt (-1)).2 }.tell (.onRead (offSet - 1)))
    | .error ctl => (some false, { s with readBuffer := q }.onDisConnect .connectBreak ctl)
    | .data bytes ctl =>
      let bytes := bytes.take buffLen
      if bytes.length = 0 then
        (some false, { s with readBuffer := q }.onDisConnect .closed ctl)
      else
        let s := { s with
          readBuffer := ((q.readv ioVec bytes).moveWritePt bytes.length).2
          received := s.received ++ bytes }
        let offSet := offSet + UInt32.ofNat bytes.length
        if bytes.length < buffLen then (some true, s.tell (.onRead offSet))
        else recvLoop rets s (grow needExpend expandBuffLen) true offSet

/-- `OnRead()`, for an `EPOLLIN` event. -/
def onRead (s : RWSocket) (rets : List Readv) : Option Bool × RWSocket :=
  recvLoop rets s linuxReadBuffExpandLen false 0

end RWSocket

end CodeTest.CppNet
