import CodeTest.UvLua.MinHeap

/-!
# The server that closes idle connections

`tcpserver.c`, as far as the connections and the heap of their nodes go. A connection is its
address, which is also that of its node; `conns` has the flags of the handles of libuv for the
connections that are referenced. What libuv calls is an event, with the time, and what it may call
is said by `Allowed`. To close a handle twice violates an assertion of libuv, and has no result.

A reference that is given up frees the connection at once, and `shutdown` works on every connection
that is not closing or shut down already.
-/

namespace CodeTest.UvLua

/-- The flags of a handle. `shutting` stands for `UV_STREAM_SHUTTING` and `UV_STREAM_SHUT`. -/
structure TcpConn where
  reading : Bool := false
  shutting : Bool := false
  closing : Bool := false

structure TcpServer where
  minheap : MinHeap
  idle_timeout : ℤ
  conns : Table Addr TcpConn

/-- `UV_ECANCELED`. -/
def uvEcanceled : ℤ := -125

/-- What libuv, or a script, calls. A new connection comes with what its memory holds, and is
`served` if it is accepted, `onconn` lets it in and `uv_read_start` succeeds. -/
inductive TcpEvent
  | connection (now : ℤ) (conn : Addr) (junk : ℤ) (served : Bool)
  | read (now : ℤ) (conn : Addr) (nread : ℤ)
  | shutdown (conn : Addr)
  | closed (conn : Addr)
  | timer (now : ℤ)
  | setTimeout (idle_timeout : ℤ)

namespace TcpServer

/-- What `lua_create_server` sets up. -/
def create : TcpServer := { minheap := .init ∅, idle_timeout := 0, conns := ∅ }

/-- `uv_tcpconn_new`. -/
def uvTcpconnNew (s : TcpServer) (now : ℤ) (conn : Addr) (junk : ℤ) : TcpServer :=
  let node := { ev_timeout := if 0 < s.idle_timeout then now + s.idle_timeout else junk }
  { s with
    minheap := { s.minheap with nodes := s.minheap.nodes.insert conn node }
    conns := s.conns.insert conn {} }

/-- `conn->e.ev_timeout = time`. -/
def setTimeoutOf (s : TcpServer) (conn : Addr) (time : ℤ) : Option TcpServer := do
  let nodes ← s.minheap.nodes.write conn fun node => { node with ev_timeout := time }
  return { s with minheap := { s.minheap with nodes } }

/-- `uv_shutdown`. -/
def uvShutdown (s : TcpServer) (conn : Addr) : Option TcpServer := do
  let c ← s.conns.lookup conn
  if c.shutting || c.closing then return s
  else return { s with conns := s.conns.insert conn { c with shutting := true } }

/-- `uv_close`. -/
def uvClose (s : TcpServer) (conn : Addr) : Option TcpServer := do
  let c ← s.conns.lookup conn
  if c.closing then none
  else return { s with conns := s.conns.insert conn { c with closing := true } }

/-- `minheap_push`. -/
def push (s : TcpServer) (conn : Addr) : Option TcpServer := do
  return { s with minheap := ← s.minheap.push conn }

/-- `lua_tcpserver_onconnection`. -/
def onconnection (s : TcpServer) (now : ℤ) (conn : Addr) (junk : ℤ) (served : Bool) :
    Option TcpServer := do
  let s := s.uvTcpconnNew now conn junk
  if served then
    let s := { s with conns := s.conns.insert conn { reading := true } }
    let s ← s.setTimeoutOf conn now
    s.push conn
  else s.uvClose conn

/-- `uv_tcpserver_onread`. -/
def onread (s : TcpServer) (now : ℤ) (conn : Addr) (nread : ℤ) : Option TcpServer :=
  if 0 < nread then
    if 0 < s.idle_timeout then do
      let s ← s.setTimeoutOf conn now
      if ← s.minheap.elmInheap conn then
        let minheap ← s.minheap.adjust conn
        return { s with minheap }
      else s.push conn
    else some s
  else if nread = uvEcanceled then some s
  else s.uvShutdown conn

/-- `uv_tcpserver_onconnclose`. -/
def onconnclose (s : TcpServer) (conn : Addr) : Option TcpServer := do
  let (_, minheap) ← s.minheap.erase conn
  return { s with
    minheap := { minheap with nodes := minheap.nodes.erase conn }
    conns := s.conns.erase conn }

/-- The loop of `uv_tcpserver_ontimer`, with a bound on its turns: the connections that were taken
off the heap, the oldest first. -/
def timerLoop (tm : ℤ) : ℕ → TcpServer → Option (List Addr × TcpServer)
  | fuel, s =>
    if s.minheap.n = 0 then some ([], s)
    else do
      let top ← s.minheap.entry 0
      let ev_timeout ← s.minheap.timeout top
      if ev_timeout < tm then
        match fuel with
        | 0 => none
        | fuel + 1 =>
          let (e, minheap) ← s.minheap.pop
          let conn ← e
          let s ← { s with minheap }.uvShutdown conn
          let (conns, s) ← timerLoop tm fuel s
          return (conn :: conns, s)
      else return ([], s)

/-- `uv_tcpserver_ontimer`. -/
def ontimer (s : TcpServer) (now : ℤ) : Option (List Addr × TcpServer) :=
  if 0 < s.idle_timeout then timerLoop (now - s.idle_timeout) s.minheap.n s
  else some ([], s)

/-- `uv_server_set_timeout`. -/
def setTimeout (s : TcpServer) (idle_timeout : ℤ) : TcpServer :=
  if 0 < idle_timeout then { s with idle_timeout } else s

/-- One step; `shutdown` is `uv_conn_shutdown_cb`. -/
def step (s : TcpServer) : TcpEvent → Option TcpServer
  | .connection now conn junk served => s.onconnection now conn junk served
  | .read now conn nread => s.onread now conn nread
  | .shutdown conn => s.uvClose conn
  | .closed conn => s.onconnclose conn
  | .timer now => (s.ontimer now).map Prod.snd
  | .setTimeout idle_timeout => some (s.setTimeout idle_timeout)

/-- What libuv may call: a new connection has memory of its own; a connection is read from until it
is closed; the callback of a shutdown that was begun comes once, before the connection is closed,
and that of `uv_close` comes after it. -/
def Allowed (s : TcpServer) : TcpEvent → Prop
  | .connection _ conn _ _ => conn ∉ s.conns
  | .read _ conn _ => ∃ c ∈ s.conns.lookup conn, c.reading ∧ ¬ c.closing
  | .shutdown conn => ∃ c ∈ s.conns.lookup conn, c.shutting ∧ ¬ c.closing
  | .closed conn => ∃ c ∈ s.conns.lookup conn, c.closing
  | .timer _ => True
  | .setTimeout _ => True

instance decidableAllowed (s : TcpServer) : ∀ e, Decidable (Allowed s e)
  | .connection _ conn _ _ => inferInstanceAs (Decidable (conn ∉ s.conns))
  | .read _ conn _ =>
    inferInstanceAs (Decidable (∃ c ∈ s.conns.lookup conn, c.reading ∧ ¬ c.closing))
  | .shutdown conn =>
    inferInstanceAs (Decidable (∃ c ∈ s.conns.lookup conn, c.shutting ∧ ¬ c.closing))
  | .closed conn => inferInstanceAs (Decidable (∃ c ∈ s.conns.lookup conn, c.closing))
  | .timer _ => .isTrue trivial
  | .setTimeout _ => .isTrue trivial

end TcpServer

end CodeTest.UvLua
