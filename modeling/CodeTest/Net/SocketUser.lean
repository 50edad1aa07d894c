import CodeTest.Net.LoopBuffer

/-!
# One connection of the epoll server

The functions of `gdriven.cpp` that act on one accepted connection: `CSocketUser::Send` and `Read`,
and `Receive`, `Writeable` and `Send` of `CLinuxHandler`. A `Connection` is the `CSocketUser` with
what the kernel and the thread's socket map hold for its descriptor. What a system call answers is
an argument of the function that makes the call, so a statement about all arguments is a statement
about all behaviours of the kernel. Texts printed to the log and the peer's address are left out.
-/

namespace CodeTest.Net

/-- The bits of the event masks that the handler registers. -/
inductive EpollFlag
  | epollin
  | epollout
  | epollrdhup
  | epollet
  | epolloneshot
  deriving DecidableEq

/-- `_MAX_RECEIVE_ONCE_SIZE`. -/
def maxReceiveOnceSize : ℕ := 1024

/-- `struct NetThread_Linux`. -/
structure NetThreadLinux where
  writable : Bool
  fdSocket : ℤ
  fdEpoll : ℤ
  deriving DecidableEq

/-- The fields of `CSocketUser` that the functions of a connection use. -/
structure CSocketUser where
  nt : NetThreadLinux
  recvBuffer : CLoopBuffer
  sendBuffer : CLoopBuffer

/-- A connection: its `CSocketUser`, whether `__all_socket_map` has it under its descriptor, the
event mask armed in epoll, the bytes the kernel's `send` has accepted, and the descriptors that were
closed. -/
structure Connection where
  user : CSocketUser
  registered : Bool
  armed : Option (List EpollFlag)
  accepted : List UInt8
  closed : List ℤ

namespace Connection

/-- `HandleSocketListener(nt, events, type)`, where `epoll_ctl` answers `ret`. A failed call closes
the descriptor of the epoll instance and of the socket. -/
def handleSocketListener (c : Connection) (events : List EpollFlag) (type ret : ℤ) :
    Bool × Connection :=
  if ret < 0 then
    (false, { c with closed := c.user.nt.fdSocket :: c.user.nt.fdEpoll :: c.closed })
  else if type < 0 then
    (true, { c with armed := none })
  else
    (true, { c with armed := some events })

/-- The connection that `CLinuxHandler::Accept` sets up for a new descriptor. The blocks of the two
buffers are of the usable size `usable` and hold junk, and `epoll_ctl` answers `ctl`. -/
def accept (fdSocket fdEpoll : ℤ) (junk junk' : ℤ → UInt8) (usable : ℕ) (ctl : ℤ) : Connection :=
  let nt := { writable := true, fdSocket := fdSocket, fdEpoll := fdEpoll }
  let user := { nt := nt, recvBuffer := .new junk usable, sendBuffer := .new junk' usable }
  let c := { user := user, registered := true, armed := none, accepted := [], closed := [] }
  (handleSocketListener c [.epollin, .epollrdhup, .epollet, .epolloneshot] 1 ctl).2

/-- `CLinuxHandler::Send`, where the kernel's `send` answers `ret`: an error when negative, else the
number of bytes taken. -/
def handlerSend (c : Connection) (buffer : List UInt8) (ret : ℤ) : Bool × Connection :=
  if ret < 0 then
    (false, c)
  else
    (true, { c with accepted := c.accepted ++ buffer.take ret.toNat })

def setNtWritable (c : Connection) (writable : Bool) : Connection :=
  { c with user := { c.user with nt := { c.user.nt with writable := writable } } }

def setSendBuffer (c : Connection) (b : CLoopBuffer) : Connection :=
  { c with user := { c.user with sendBuffer := b } }

def setRecvBuffer (c : Connection) (b : CLoopBuffer) : Connection :=
  { c with user := { c.user with recvBuffer := b } }

/-- The path of `CSocketUser::Send` past the direct sending: the content goes to the send buffer and
the connection waits for `EPOLLOUT`. -/
def queue (c : Connection) (send : List UInt8) (ctl : ℤ) : Bool × Connection :=
  let c := c.setNtWritable false
  let w := c.user.sendBuffer.write send
  let c := c.setSendBuffer w.2
  let c := (c.handleSocketListener [.epollin, .epollout, .epollrdhup, .epollet, .epolloneshot]
    0 ctl).2
  (w.1, c)

/-- `CSocketUser::Send(buffer)`, where the kernel's `send` answers `ret` if it is called and
`epoll_ctl` answers `ctl` if it is called. The terminating NUL of the string is sent with it. -/
def send (c : Connection) (buffer : List UInt8) (ret ctl : ℤ) : Bool × Connection :=
  let send := buffer ++ [0]
  if c.user.nt.writable then
    match c.handlerSend send ret with
    | (true, c) => (true, c)
    | (false, c) => c.queue send ctl
  else
    c.queue send ctl

/-- `CLinuxHandler::Writeable`, up to the user's callback. -/
def writeable (c : Connection) (ctl : ℤ) : Connection :=
  if c.registered then
    ((c.setNtWritable true).handleSocketListener [.epollin, .epollrdhup, .epollet, .epolloneshot]
      0 ctl).2
  else
    c

/-- What one `recv` answers: `-1`, `0`, or a positive number of bytes. -/
inductive RecvResult
  | error
  | eof
  | data (bytes : List UInt8)
  deriving DecidableEq

/-- How a call of `Receive` ended: after `-1`, with the listener re-armed and the receive callback
run; at `0`, or without a socket user, with neither; or it has not ended with the results given. -/
inductive ReceiveEnd
  | callback
  | silent
  | running
  deriving DecidableEq

/-- The bytes `Receive` writes for a chunk: a chunk shorter than the receive size that does not end
in NUL is given one. -/
def terminate (chunk : List UInt8) : List UInt8 :=
  if chunk.length < maxReceiveOnceSize then
    if chunk.getLast? ≠ some 0 then chunk ++ [0] else chunk
  else
    chunk

/-- `CLinuxHandler::Receive`, on the results of its calls of `recv`. The result of `Write` is not
looked at. -/
def receive (c : Connection) (ctl : ℤ) : List RecvResult → ReceiveEnd × Connection
  | [] => (.running, c)
  | .error :: _ =>
    (.callback, (c.handleSocketListener [.epollin, .epollrdhup, .epollet, .epolloneshot] 0 ctl).2)
  | .eof :: _ => (.silent, c)
  | .data chunk :: results =>
    if c.registered then
      (c.setRecvBuffer (c.user.recvBuffer.write (terminate chunk)).2).receive ctl results
    else
      (.silent, c)

/-- A `std::string` made from a `char*`: the bytes up to the first NUL. `beyond` is what lies in
memory behind the block. -/
def cString (content beyond : List UInt8) : List UInt8 :=
  (content ++ beyond).takeWhile (· ≠ 0)

/-- `CSocketUser::Read()`. -/
def readString (c : Connection) (beyond : List UInt8) : List UInt8 × Connection :=
  let size := c.user.recvBuffer.getReadSize
  let r := c.user.recvBuffer.read size
  (match r.1 with
    | some content => cString content beyond
    | none => [],
    c.setRecvBuffer r.2)

/-- `CSocketUser::ReadAll()`. -/
def readAll (c : Connection) (beyond : List UInt8) : List UInt8 × Connection :=
  let size := c.user.recvBuffer.getReadableSize.toNat
  let r := c.user.recvBuffer.read size
  (match r.1 with
    | some content => cString content beyond
    | none => [],
    c.setRecvBuffer r.2)

/-- `CSocketUser::Read(content, size)`: the bytes put in `content` when it returns true. -/
def readInto (c : Connection) (size : ℕ) : Option (List UInt8) × Connection :=
  let r := c.user.recvBuffer.read size
  (r.1, c.setRecvBuffer r.2)

/-! ## What the helpers leave alone -/

section Frame

variable (c : Connection)

@[simp] theorem handleSocketListener_user (events : List EpollFlag) (type ret : ℤ) :
    (c.handleSocketListener events type ret).2.user = c.user := by
  unfold handleSocketListener
  split_ifs <;> rfl

@[simp] theorem handleSocketListener_accepted (events : List EpollFlag) (type ret : ℤ) :
    (c.handleSocketListener events type ret).2.accepted = c.accepted := by
  unfold handleSocketListener
  split_ifs <;> rfl

@[simp] theorem handleSocketListener_registered (events : List EpollFlag) (type ret : ℤ) :
    (c.handleSocketListener events type ret).2.registered = c.registered := by
  unfold handleSocketListener
  split_ifs <;> rfl

@[simp] theorem queue_fst (send : List UInt8) (ctl : ℤ) :
    (c.queue send ctl).1 = (c.user.sendBuffer.write send).1 := rfl

@[simp] theorem queue_sendBuffer (send : List UInt8) (ctl : ℤ) :
    (c.queue send ctl).2.user.sendBuffer = (c.user.sendBuffer.write send).2 := by
  simp [queue, setNtWritable, setSendBuffer]

@[simp] theorem queue_accepted (send : List UInt8) (ctl : ℤ) :
    (c.queue send ctl).2.accepted = c.accepted := by
  simp [queue, setNtWritable, setSendBuffer]

@[simp] theorem writeable_sendBuffer (ctl : ℤ) :
    (c.writeable ctl).user.sendBuffer = c.user.sendBuffer := by
  unfold writeable
  split_ifs <;> simp [setNtWritable]

@[simp] theorem writeable_accepted (ctl : ℤ) : (c.writeable ctl).accepted = c.accepted := by
  unfold writeable
  split_ifs <;> simp [setNtWritable]

end Frame

/-- The two paths of `Send`: straight to the kernel, or into the send buffer. -/
theorem send_eq (c : Connection) (buffer : List UInt8) (ret ctl : ℤ) :
    c.send buffer ret ctl =
      if c.user.nt.writable ∧ 0 ≤ ret then
        (true, { c with accepted := c.accepted ++ (buffer ++ [0]).take ret.toNat })
      else
        c.queue (buffer ++ [0]) ctl := by
  unfold send handlerSend
  by_cases hw : c.user.nt.writable = true
  · by_cases hr : ret < 0
    · simp [hw, hr]
    · simp [hw, hr, not_lt.mp hr]
  · simp [hw]

end Connection

end CodeTest.Net
