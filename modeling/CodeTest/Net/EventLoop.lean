import CodeTest.Foundations.Machine
import CodeTest.Foundations.Table
import CodeTest.Net.SocketUser

/-!
# The event loop of a thread

`CLinuxHandler::EventLoop` with what it calls: `Accept`, `Disconnect`, `Receive` and `Writeable`,
and `CSocketUser::Send` and `Disconnect`, which the application calls. The state is what the thread
owns, the socket map and the `CSocketUser`s, and what the kernel keeps for it: the open descriptors
and the interest list of the epoll instance. A descriptor that was closed may be given out again by
`accept`. A `CSocketUser` is named by its place in the order of their creation, and is kept, as by
an application that holds on to it.

What the kernel answers is part of an event. `epoll_ctl` also fails where its documentation says so:
on descriptors that are not open, for an addition of one that is registered, and for a change of one
that is not. A turn of the loop of `Accept` is an event of its own. So are the calls that a callback
makes, which come after the event that runs the callback.

`run_user` says that the loop serves each client as one connection, so that what is proved of the
buffers of a `Connection` holds of those of every client.
-/

namespace CodeTest.Net

/-- What an open descriptor stands for. -/
inductive File
  | epoll
  | listening
  | client
  deriving DecidableEq

/-- An entry of the interest list: the `data.ptr` of the registration, which is the
`NetThread_Linux` of the thread or of a `CSocketUser`, and the events waited for, none when the
entry is disarmed. -/
structure Registration where
  ptr : Option ℕ
  armed : Option (List EpollFlag)

/-- The events that `epoll_wait` reports, as far as the loop looks at them. -/
structure EpollEvents where
  epollin : Bool
  epollrdhup : Bool
  epollout : Bool

inductive Callback
  | accept
  | receive
  | disconnect
  | writeable
  deriving DecidableEq

/-- What a thread does that shows outside: a call of `epoll_ctl` for a client and whether it was
successful, a chunk stored in a receive buffer, or a callback with the user it is given. -/
inductive NetAction
  | epollCtl (fd : ℤ) (ok : Bool)
  | stored (fd : ℤ) (bytes : List UInt8)
  | callback (cb : Callback) (user : Option ℕ)
  deriving DecidableEq

/-- A thread: `nt` is its own `NetThread_Linux`, `pending` the reported events that are still to be
handled, `actions` what the last event has led to. -/
structure EventLoop where
  nt : NetThreadLinux
  files : Table ℤ File
  interest : Table ℤ Registration
  users : List CSocketUser
  allSocketMap : Table ℤ ℕ
  pending : List (Option ℕ × EpollEvents)
  actions : List NetAction

/-- An event with the answers of the kernel that it needs: `ctl` is what `epoll_ctl` answers. -/
inductive LoopEvent
  /-- `epoll_wait` reports events of the descriptors. -/
  | wait (ready : List (ℤ × EpollEvents))
  /-- The loop goes on with the next reported event. -/
  | dispatch (results : List Connection.RecvResult) (ctl : ℤ)
  /-- A turn of the loop of `Accept`. -/
  | accept (clientFd : ℤ) (junk junk' : ℤ → UInt8) (usable : ℕ) (ctl : ℤ)
  /-- The application calls `Send` of a user. -/
  | send (user : ℕ) (buffer : List UInt8) (ret ctl : ℤ)
  /-- The application calls `Disconnect` of a user. -/
  | disconnect (user : ℕ) (ctl : ℤ)

namespace EventLoop

open Connection

/-- The thread at the start of its loop. -/
def init (fdSocket fdEpoll : ℤ) : EventLoop where
  nt := { writable := false, fdSocket := fdSocket, fdEpoll := fdEpoll }
  files := (AList.insert fdSocket .listening ∅).insert fdEpoll .epoll
  interest := AList.insert fdSocket ⟨none, some [.epollin, .epollrdhup, .epollet]⟩ ∅
  users := []
  allSocketMap := ∅
  pending := []
  actions := []

def act (s : EventLoop) (a : NetAction) : EventLoop := { s with actions := s.actions ++ [a] }

def modifyUser (s : EventLoop) (user : ℕ) (f : CSocketUser → CSocketUser) : EventLoop :=
  { s with users := s.users.modify user f }

/-- `close(fd)`. A descriptor that is closed leaves the interest list, and with the epoll instance
the whole list is gone. -/
def close (s : EventLoop) (fd : ℤ) : EventLoop :=
  { s with
    files := s.files.erase fd
    interest := if s.files.lookup fd = some .epoll then ∅ else s.interest.erase fd }

/-- The calls of `epoll_ctl` that can be successful. -/
def CtlPossible (s : EventLoop) (nt : NetThreadLinux) (type : ℤ) : Prop :=
  nt.fdEpoll = s.nt.fdEpoll ∧ s.files.lookup nt.fdEpoll = some .epoll ∧
    (s.files.lookup nt.fdSocket).isSome ∧
    (0 < type ↔ (s.interest.lookup nt.fdSocket).isNone)

instance (s : EventLoop) (nt : NetThreadLinux) (type : ℤ) : Decidable (s.CtlPossible nt type) :=
  inferInstanceAs (Decidable (_ ∧ _ ∧ _ ∧ (_ ↔ _)))

/-- `epoll_ctl` for the socket of a user: `EPOLL_CTL_MOD`, `EPOLL_CTL_DEL` or `EPOLL_CTL_ADD` as
`type` is zero, negative or positive. -/
def epollCtl (s : EventLoop) (user : ℕ) (nt : NetThreadLinux) (events : List EpollFlag)
    (type ctl : ℤ) : Bool × EventLoop :=
  if 0 ≤ ctl ∧ s.CtlPossible nt type then
    (true, { s.act (.epollCtl nt.fdSocket true) with
      interest :=
        if type < 0 then s.interest.erase nt.fdSocket
        else s.interest.insert nt.fdSocket ⟨some user, some events⟩ })
  else
    (false, s.act (.epollCtl nt.fdSocket false))

def handleSocketListener (s : EventLoop) (user : ℕ) (nt : NetThreadLinux) (events : List EpollFlag)
    (type ctl : ℤ) : Bool × EventLoop :=
  match s.epollCtl user nt events type ctl with
  | (false, s) => (false, (s.close nt.fdEpoll).close nt.fdSocket)
  | (true, s) => (true, s)

/-- `CSocketUser::GetSocketUser`. -/
def getSocketUser (s : EventLoop) (fd : ℤ) : Option ℕ := s.allSocketMap.lookup fd

/-- `CSocketUser::AddSocketUser`. -/
def addSocketUser (s : EventLoop) (user : ℕ) (fd : ℤ) : EventLoop :=
  match s.allSocketMap.lookup fd with
  | some _ => s
  | none => { s with allSocketMap := s.allSocketMap.insert fd user }

/-- `CSocketUser::DelSocketUser`. -/
def delSocketUser (s : EventLoop) (fd : ℤ) : EventLoop :=
  { s with allSocketMap := s.allSocketMap.erase fd }

/-- A turn of the loop of `CLinuxHandler::Accept`, where `accept` has answered `clientFd`. The
answer is not a descriptor that is open. -/
def accept (s : EventLoop) (clientFd : ℤ) (junk junk' : ℤ → UInt8) (usable : ℕ) (ctl : ℤ) :
    EventLoop :=
  if clientFd < 0 ∨ (s.files.lookup clientFd).isSome then s
  else
    let nt : NetThreadLinux :=
      { writable := true, fdSocket := clientFd, fdEpoll := s.nt.fdEpoll }
    let user := s.users.length
    let s : EventLoop := { s with
      files := s.files.insert clientFd .client
      users := s.users ++ [⟨nt, .new junk usable, .new junk' usable⟩] }
    let s := s.addSocketUser user clientFd
    let s := (s.handleSocketListener user nt [.epollin, .epollrdhup, .epollet, .epolloneshot]
      1 ctl).2
    s.act (.callback .accept (some user))

/-- `CLinuxHandler::Disconnect`. -/
def disconnect (s : EventLoop) (user : ℕ) (nt : NetThreadLinux) (ctl : ℤ) : EventLoop :=
  let s := (s.handleSocketListener user nt
    [.epollin, .epollout, .epollrdhup, .epollet, .epolloneshot] (-1) ctl).2
  let s := s.close nt.fdSocket
  let s := s.act (.callback .disconnect (s.getSocketUser nt.fdSocket))
  s.delSocketUser nt.fdSocket

/-- The `Write` of a chunk to the receive buffer of a user. -/
def store (s : EventLoop) (user : ℕ) (fd : ℤ) (bytes : List UInt8) : EventLoop :=
  match s.users[user]? with
  | none => s
  | some u =>
    let w := u.recvBuffer.write bytes
    let s := s.modifyUser user fun u => { u with recvBuffer := w.2 }
    if w.1 then s.act (.stored fd bytes) else s

/-- `CLinuxHandler::Receive`, on the results of its calls of `recv`. -/
def receive (s : EventLoop) (user : ℕ) (nt : NetThreadLinux) (ctl : ℤ) :
    List RecvResult → EventLoop
  | [] => s
  | .error :: _ =>
    let s := (s.handleSocketListener user nt [.epollin, .epollrdhup, .epollet, .epolloneshot]
      0 ctl).2
    s.act (.callback .receive (s.getSocketUser nt.fdSocket))
  | .eof :: _ => s
  | .data chunk :: results =>
    match s.getSocketUser nt.fdSocket with
    | some socketUser =>
      (s.store socketUser nt.fdSocket (terminate chunk)).receive user nt ctl results
    | none => s

def setWritable (writable : Bool) (u : CSocketUser) : CSocketUser :=
  { u with nt := { u.nt with writable := writable } }

/-- `CLinuxHandler::Writeable`. -/
def writeable (s : EventLoop) (user : ℕ) (nt : NetThreadLinux) (ctl : ℤ) : EventLoop :=
  match s.getSocketUser nt.fdSocket with
  | some socketUser =>
    let s := s.modifyUser socketUser (setWritable true)
    let s := (s.handleSocketListener user nt [.epollin, .epollrdhup, .epollet, .epolloneshot]
      0 ctl).2
    s.act (.callback .writeable (some socketUser))
  | none => s

/-- `CSocketUser::Send`, where the kernel's `send` answers `ret` if it is called. -/
def send (s : EventLoop) (user : ℕ) (u : CSocketUser) (buffer : List UInt8) (ret ctl : ℤ) :
    EventLoop :=
  if u.nt.writable ∧ 0 ≤ ret then s
  else
    let s := s.modifyUser user fun u =>
      { setWritable false u with sendBuffer := (u.sendBuffer.write (buffer ++ [0])).2 }
    (s.handleSocketListener user u.nt
      [.epollin, .epollout, .epollrdhup, .epollet, .epolloneshot] 0 ctl).2

/-- What `epoll_wait` reports: events of armed entries, whose entries are disarmed when they are
one-shot. -/
def report (s : EventLoop) : List (ℤ × EpollEvents) → EventLoop
  | [] => s
  | (fd, events) :: ready =>
    match s.interest.lookup fd with
    | some ⟨ptr, some mask⟩ =>
      { s with
        pending := s.pending ++ [(ptr, events)]
        interest :=
          if EpollFlag.epolloneshot ∈ mask then s.interest.insert fd ⟨ptr, none⟩
          else s.interest }.report ready
    | _ => s.report ready

/-- The body of the loop over the reported events, for an event of a user's socket. -/
def handle (s : EventLoop) (user : ℕ) (nt : NetThreadLinux) (events : EpollEvents)
    (results : List RecvResult) (ctl : ℤ) : EventLoop :=
  if nt.fdSocket = s.nt.fdSocket then s
  else if events.epollin then
    if events.epollrdhup then s.disconnect user nt ctl
    else s.receive user nt ctl results
  else if events.epollout then s.writeable user nt ctl
  else s

/-- The next reported event. Those of the listening socket lead to `Accept`. -/
def dispatch (s : EventLoop) (results : List RecvResult) (ctl : ℤ) : EventLoop :=
  match s.pending with
  | [] => s
  | (none, _) :: pending => { s with pending }
  | (some user, events) :: pending =>
    match s.users[user]? with
    | some u => { s with pending }.handle user u.nt events results ctl
    | none => { s with pending }

/-- What an event leads to. The loop waits when no reported event is left. -/
def exec (s : EventLoop) : LoopEvent → EventLoop
  | .wait ready =>
    match s.pending with
    | [] => s.report ready
    | _ :: _ => s
  | .dispatch results ctl => s.dispatch results ctl
  | .accept clientFd junk junk' usable ctl => s.accept clientFd junk junk' usable ctl
  | .send user buffer ret ctl =>
    match s.users[user]? with
    | some u => s.send user u buffer ret ctl
    | none => s
  | .disconnect user ctl =>
    match s.users[user]? with
    | some u => s.disconnect user u.nt ctl
    | none => s

/-- One event. What shows of it is what the thread does. -/
def step : Machine EventLoop LoopEvent (List NetAction) := fun s e =>
  let s := { s with actions := [] }.exec e
  (s.actions, s)

/-! ## The connection of a client

What the loop does with the `CSocketUser` of a client is what the functions of one connection do: in
every run it is the `CSocketUser` of a `Connection` that gets the client's part of the events.
-/

/-- What the loop does with the connection that the socket map has under a descriptor. -/
inductive ConnectionEvent
  | receive (results : List RecvResult) (ctl : ℤ)
  | writeable (ctl : ℤ)
  | send (buffer : List UInt8) (ret ctl : ℤ)

def ConnectionEvent.exec (c : Connection) : ConnectionEvent → Connection
  | .receive results ctl => (c.receive ctl results).2
  | .writeable ctl => c.writeable ctl
  | .send buffer ret ctl => (c.send buffer ret ctl).2

/-- The part of a reported event that the connection of `user` gets: the one that the socket map has
under the event's descriptor. -/
def reportedPart (s : EventLoop) (user : ℕ) (fd : ℤ) (events : EpollEvents)
    (results : List RecvResult) (ctl : ℤ) : Option ConnectionEvent :=
  if fd = s.nt.fdSocket ∨ s.getSocketUser fd ≠ some user then none
  else if events.epollin then
    if events.epollrdhup then none else some (.receive results ctl)
  else if events.epollout then some (.writeable ctl)
  else none

/-- The part of an event that the connection of `user` gets. -/
def part (s : EventLoop) (user : ℕ) : LoopEvent → Option ConnectionEvent
  | .dispatch results ctl =>
    match s.pending with
    | (some sender, events) :: _ =>
      match s.users[sender]? with
      | some u => s.reportedPart user u.nt.fdSocket events results ctl
      | none => none
    | _ => none
  | .send sender buffer ret ctl => if sender = user then some (.send buffer ret ctl) else none
  | _ => none

/-- The parts of a run that the connection of `user` gets. -/
def parts (user : ℕ) : EventLoop → List LoopEvent → List ConnectionEvent
  | _, [] => []
  | s, e :: es => (s.part user e).toList ++ parts user (step s e).2 es

section Connection

variable {s : EventLoop} {user sender : ℕ} {u : CSocketUser} {nt : NetThreadLinux}
  {c : Connection} {ctl : ℤ}

@[simp] theorem handleSocketListener_users (nt : NetThreadLinux) (events : List EpollFlag)
    (type ctl : ℤ) : (s.handleSocketListener user nt events type ctl).2.users = s.users := by
  unfold handleSocketListener epollCtl
  split_ifs <;> rfl

@[simp] theorem disconnect_users (nt : NetThreadLinux) (ctl : ℤ) :
    (s.disconnect user nt ctl).users = s.users := handleSocketListener_users ..

@[simp] theorem report_users (ready : List (ℤ × EpollEvents)) :
    (s.report ready).users = s.users := by
  induction ready generalizing s with
  | nil => rfl
  | cons r ready ih =>
    obtain ⟨fd, events⟩ := r
    rw [report]
    split
    · exact ih
    · exact ih

theorem store_user (hu : s.users[user]? = some u) (fd : ℤ) (bytes : List UInt8) :
    (s.store user fd bytes).users[user]? =
        some { u with recvBuffer := (u.recvBuffer.write bytes).2 } ∧
      (s.store user fd bytes).allSocketMap = s.allSocketMap := by
  have huser : (s.modifyUser user
      fun u' => { u' with recvBuffer := (u.recvBuffer.write bytes).2 }).users[user]? =
        some { u with recvBuffer := (u.recvBuffer.write bytes).2 } := by
    rw [modifyUser, List.getElem?_modify_eq, hu]
    rfl
  simp only [store, hu]
  split_ifs
  · exact ⟨huser, rfl⟩
  · exact ⟨huser, rfl⟩

theorem modifyUser_other (hne : sender ≠ user) (f : CSocketUser → CSocketUser) :
    (s.modifyUser sender f).users[user]? = s.users[user]? :=
  List.getElem?_modify_ne f s.users hne

theorem store_other (hne : sender ≠ user) (fd : ℤ) (bytes : List UInt8) :
    (s.store sender fd bytes).users[user]? = s.users[user]? ∧
      (s.store sender fd bytes).allSocketMap = s.allSocketMap := by
  unfold store
  split
  · exact ⟨rfl, rfl⟩
  · simp only
    split_ifs
    · exact ⟨modifyUser_other hne _, rfl⟩
    · exact ⟨modifyUser_other hne _, rfl⟩

/-- `Receive` fills the buffer of the client as on one connection. -/
theorem receive_user (hu : s.users[user]? = some c.user) (hregistered : c.registered = true)
    (hmap : s.getSocketUser nt.fdSocket = some user) (results : List RecvResult) :
    (s.receive sender nt ctl results).users[user]? = some (c.receive ctl results).2.user := by
  induction results generalizing s c with
  | nil => exact hu
  | cons result results ih =>
    cases result with
    | error =>
      rw [receive, Connection.receive, Connection.handleSocketListener_user]
      exact (congrArg (·[user]?) (handleSocketListener_users ..)).trans hu
    | eof => exact hu
    | data chunk =>
      obtain ⟨huser, hsame⟩ := store_user hu nt.fdSocket (terminate chunk)
      rw [receive, hmap, Connection.receive, if_pos hregistered]
      have hmap' : (s.store user nt.fdSocket (terminate chunk)).getSocketUser nt.fdSocket =
          some user := by
        rw [getSocketUser, hsame]
        exact hmap
      exact ih (c := c.setRecvBuffer (c.user.recvBuffer.write (terminate chunk)).2) huser
        hregistered hmap'

theorem receive_other (hmap : s.getSocketUser nt.fdSocket ≠ some user)
    (results : List RecvResult) :
    (s.receive sender nt ctl results).users[user]? = s.users[user]? := by
  induction results generalizing s with
  | nil => rfl
  | cons result results ih =>
    cases result with
    | error =>
      rw [receive]
      exact congrArg (·[user]?) (handleSocketListener_users ..)
    | eof => rfl
    | data chunk =>
      rw [receive]
      cases hother : s.getSocketUser nt.fdSocket with
      | none => rfl
      | some other =>
        have hne : other ≠ user := fun heq => hmap (hother.trans (congrArg some heq))
        obtain ⟨huser, hsame⟩ := store_other hne nt.fdSocket (terminate chunk)
        refine (ih ?_).trans huser
        rw [getSocketUser, hsame]
        exact hmap

/-- `Writeable` and `Send` change the `CSocketUser` as on one connection. -/
theorem writeable_user (hu : s.users[user]? = some c.user) (hregistered : c.registered = true)
    (hmap : s.getSocketUser nt.fdSocket = some user) :
    (s.writeable sender nt ctl).users[user]? = some (c.writeable ctl).user := by
  rw [writeable, hmap, Connection.writeable, if_pos hregistered,
    Connection.handleSocketListener_user]
  refine (congrArg (·[user]?) (handleSocketListener_users ..)).trans ?_
  rw [modifyUser, List.getElem?_modify_eq, hu, setNtWritable]
  rfl

theorem writeable_other (hmap : s.getSocketUser nt.fdSocket ≠ some user) :
    (s.writeable sender nt ctl).users[user]? = s.users[user]? := by
  unfold writeable
  cases hother : s.getSocketUser nt.fdSocket with
  | none => rfl
  | some other =>
    have hne : other ≠ user := fun heq => hmap (hother.trans (congrArg some heq))
    exact (congrArg (·[user]?) (handleSocketListener_users ..)).trans (modifyUser_other hne _)

theorem send_user (hu : s.users[user]? = some c.user) (buffer : List UInt8) (ret : ℤ) :
    (s.send user c.user buffer ret ctl).users[user]? = some (c.send buffer ret ctl).2.user := by
  rw [send, Connection.send_eq]
  split_ifs
  · exact hu
  · rw [handleSocketListener_users, modifyUser, List.getElem?_modify_eq, hu, queue,
      Connection.handleSocketListener_user, setSendBuffer, setNtWritable]
    rfl

theorem send_other (hne : sender ≠ user) (buffer : List UInt8) (ret : ℤ) :
    (s.send sender u buffer ret ctl).users[user]? = s.users[user]? := by
  unfold send
  split_ifs
  · rfl
  · rw [handleSocketListener_users]
    exact modifyUser_other hne _

/-- A connection stays in the socket map along its events. -/
theorem exec_registered (e : ConnectionEvent) : (e.exec c).registered = c.registered := by
  cases e with
  | receive results ctl =>
    rw [ConnectionEvent.exec]
    induction results generalizing c with
    | nil => rfl
    | cons result results ih =>
      cases result with
      | error => exact handleSocketListener_registered ..
      | eof => rfl
      | data chunk =>
        rw [Connection.receive]
        split_ifs
        · exact ih
        · rfl
  | writeable ctl =>
    rw [ConnectionEvent.exec, Connection.writeable]
    split_ifs
    · exact handleSocketListener_registered ..
    · rfl
  | send buffer ret ctl =>
    rw [ConnectionEvent.exec, Connection.send_eq]
    split_ifs
    · rfl
    · exact handleSocketListener_registered ..

/-- A reported event changes the `CSocketUser` as its part changes the connection. -/
theorem handle_user (hu : s.users[user]? = some c.user) (hregistered : c.registered = true)
    (events : EpollEvents) (results : List RecvResult) :
    (s.handle sender nt events results ctl).users[user]? =
      some ((s.reportedPart user nt.fdSocket events results ctl).toList.foldl
        ConnectionEvent.exec c).user := by
  unfold handle reportedPart
  by_cases hfd : nt.fdSocket = s.nt.fdSocket
  · rw [if_pos hfd, if_pos (Or.inl hfd)]
    exact hu
  rw [if_neg hfd]
  by_cases hmap : s.getSocketUser nt.fdSocket = some user
  · rw [if_neg (not_or.mpr ⟨hfd, not_not.mpr hmap⟩)]
    split_ifs
    · exact (congrArg (·[user]?) (disconnect_users ..)).trans hu
    · exact receive_user hu hregistered hmap results
    · exact writeable_user hu hregistered hmap
    · exact hu
  · rw [if_pos (Or.inr hmap)]
    refine Eq.trans ?_ hu
    split_ifs
    · exact congrArg (·[user]?) (disconnect_users ..)
    · exact receive_other hmap results
    · exact writeable_other hmap
    · rfl

/-- An event changes the `CSocketUser` as its part changes the connection. -/
theorem step_user (hu : s.users[user]? = some c.user) (hregistered : c.registered = true)
    (e : LoopEvent) :
    (step s e).2.users[user]? =
      some ((s.part user e).toList.foldl ConnectionEvent.exec c).user := by
  unfold step
  cases e with
  | wait ready =>
    simp only [exec]
    split
    · exact (congrArg (·[user]?) (report_users ready)).trans hu
    · exact hu
  | dispatch results ctl =>
    simp only [exec, dispatch, part]
    rcases hpending : s.pending with _ | ⟨⟨_ | sender, events⟩, pending⟩
    · exact hu
    · exact hu
    · simp only
      cases hsender : s.users[sender]? with
      | none => exact hu
      | some u =>
        exact handle_user (s := { s with pending := pending, actions := [] }) hu hregistered events
          results
  | accept clientFd junk junk' usable ctl =>
    simp only [exec, accept, part]
    split_ifs
    · exact hu
    · refine (congrArg (·[user]?) (handleSocketListener_users ..)).trans ?_
      rw [addSocketUser]
      have hkeep : ∀ u', (s.users ++ [u'])[user]? = some c.user := fun u' =>
        (List.getElem?_append_left (List.getElem?_eq_some_iff.mp hu).1).trans hu
      split
      · exact hkeep _
      · exact hkeep _
  | send sender buffer ret ctl =>
    simp only [exec, part]
    by_cases hsender : sender = user
    · subst hsender
      simp only [hu, if_true]
      exact send_user (s := { s with actions := [] }) hu buffer ret
    · rw [if_neg hsender]
      split
      · exact (send_other hsender buffer ret).trans hu
      · exact hu
  | disconnect sender ctl =>
    simp only [exec, part]
    split
    · exact (congrArg (·[user]?) (disconnect_users ..)).trans hu
    · exact hu

/-- **The loop serves each client as one connection.** Along every run the `CSocketUser` of a client
is that of a connection which gets the client's part of the run: events of other clients, and those
that come when the descriptor stands for another client, leave it as it is. -/
theorem run_user (hu : s.users[user]? = some c.user) (hregistered : c.registered = true)
    (es : List LoopEvent) :
    (Machine.run step s es).users[user]? =
      some ((parts user s es).foldl ConnectionEvent.exec c).user := by
  induction es generalizing s c with
  | nil => exact hu
  | cons e es ih =>
    have hkeep : ((s.part user e).toList.foldl ConnectionEvent.exec c).registered = true := by
      cases s.part user e with
      | none => exact hregistered
      | some p => exact (exec_registered p).trans hregistered
    rw [Machine.run_cons, parts, List.foldl_append]
    exact ih (step_user hu hregistered e) hkeep

end Connection

end EventLoop

end CodeTest.Net
