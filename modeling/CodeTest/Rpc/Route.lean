import CodeTest.MultiTask.CoMultiTask

/-!
# Remote calls

`CdsRpcMod` of `cotool.lua`, without the coordination of several calls. For each application there
is a route while calls to it wait for an answer: a table with a counter of indices, a
`TimeOutManager` with the callbacks of the calls by their indices, and the id of the timer that
looks for calls that have timed out. Routes are tables in a memory, since the closure of a timer
keeps its route; `lg_tRpcs` leads from an application to its route. `SvrTimer` is the table of the
closures that are registered with it, each with the route and the application that it has captured.

The indices are numbers, so no order is given for `next` in the `TimeOutManager`.

An operation that ends by running callbacks returns them as a list of invocations: they come after
everything else that the operation does. An operation that would index `nil` has no result.
-/

namespace CodeTest

/-- What `genCbFunctor` makes of three callbacks, each of which may be `nil`, and of arguments for
them. -/
structure CbFunctor (Cb Args : Type) where
  fCb : Option Cb
  tArgs : Args
  fTimeout : Option Cb
  fError : Option Cb
deriving DecidableEq

/-- A callback that is run, with its arguments. -/
inductive Invocation (Cb Args D : Type)
  | fCb (f : Cb) (tData : D) (tArgs : Args)
  | fTimeout (f : Cb) (tArgs : Args)
  | fError (f : Cb) (tArgs : Args)
deriving DecidableEq

/-- The arguments that were given with the callbacks. -/
def Invocation.tArgs {Cb Args D : Type} : Invocation Cb Args D → Args
  | .fCb _ _ tArgs | .fTimeout _ tArgs | .fError _ tArgs => tArgs

structure RpcRoute (N Cb Args : Type) where
  cbidx : Double
  timeoutmanager : Option (TimeOutManager N Double (CbFunctor Cb Args))
  timerid : Option Addr

/-- The state of the module and of the timers: `timers` are the closures registered with `SvrTimer`.
-/
structure CdsRpc (A N Cb Args : Type) where
  lg_tRpcs : Table A Addr
  routes : Memory (RpcRoute N Cb Args)
  timers : Memory (Addr × A)

/-- Where new routes are put, and the ids of new timers. -/
structure RpcEnv (A N Cb Args : Type) where
  newRoute : Allocator (RpcRoute N Cb Args)
  newTimer : Allocator (Addr × A)

namespace CdsRpc

variable {A N Cb Args D : Type} [DecidableEq A] [DecidableEq N]

/-- The module before any call. -/
def init : CdsRpc A N Cb Args := { lg_tRpcs := ∅, routes := ∅, timers := ∅ }

def genRpcRoute (now : ℤ) : RpcRoute N Cb Args :=
  { cbidx := 0, timeoutmanager := some (.ctor now), timerid := none }

def getRpcRoute (env : RpcEnv A N Cb Args) (s : CdsRpc A N Cb Args) (now : ℤ) (app : A) :
    Addr × CdsRpc A N Cb Args :=
  match s.lg_tRpcs.lookup app with
  | some r => (r, s)
  | none =>
    let r := env.newRoute.fresh s.routes
    (r, { s with
      lg_tRpcs := s.lg_tRpcs.insert app r
      routes := s.routes.insert r (genRpcRoute now) })

section Call

variable [IntCast N] [Add N] [One N] [LE N] [DecidableLE N]

/-- `initRpcRoute`: the index for the call. -/
def initRpcRoute (env : RpcEnv A N Cb Args) (s : CdsRpc A N Cb Args) (now : ℤ) (app : A)
    (nTimeout : Option N) : Option (CbFunctor Cb Args) → Option (Double × CdsRpc A N Cb Args)
  | none => some (0, s)
  | some tCbFunctor => do
    let (r, s) := s.getRpcRoute env now app
    let route ← s.routes.lookup r
    let (nCbIdx, cbidx) := genIdx route.cbidx
    let mgr ← route.timeoutmanager
    let mgr := mgr.push nCbIdx (nTimeout.getD (keepAliveTime : N)) tCbFunctor now
    match route.timerid with
    | some _ =>
      let routes := s.routes.insert r { route with cbidx, timeoutmanager := some mgr }
      return (nCbIdx, { s with routes })
    | none =>
      let t := env.newTimer.fresh s.timers
      let routes :=
        s.routes.insert r { cbidx, timeoutmanager := some mgr, timerid := some t }
      return (nCbIdx, { s with routes, timers := s.timers.insert t (r, app) })

end Call

/-- The route is given up: its timer is removed and it is no longer the route of the application. -/
def teardown (s : CdsRpc A N Cb Args) (r : Addr) (route : RpcRoute N Cb Args) (app : A) :
    CdsRpc A N Cb Args where
  timers := SvrTimer.remove s.timers route.timerid
  routes := s.routes.insert r { route with timeoutmanager := none }
  lg_tRpcs := s.lg_tRpcs.erase app

/-- What `onResponse` and `onResponseError` have in common: the callbacks of the call with the index
are taken out, and the route is given up if they were the last. -/
def takeFunctor (env : RpcEnv A N Cb Args) (s : CdsRpc A N Cb Args) (now : ℤ) (app : A)
    (nCbIdx : Double) : Option (Option (CbFunctor Cb Args) × CdsRpc A N Cb Args) := do
  let (r, s) := s.getRpcRoute env now app
  let route ← s.routes.lookup r
  let mgr ← route.timeoutmanager
  let (tCbFunctor, mgr) := mgr.pop nCbIdx
  let route := { route with timeoutmanager := some mgr }
  match tCbFunctor with
  | none => return (none, { s with routes := s.routes.insert r route })
  | some tCbFunctor =>
    if mgr.isEmpty then return (some tCbFunctor, s.teardown r route app)
    else return (some tCbFunctor, { s with routes := s.routes.insert r route })

def onResponse (env : RpcEnv A N Cb Args) (s : CdsRpc A N Cb Args) (now : ℤ) (app : A)
    (nCbIdx : Double) (tData : D) : Option (List (Invocation Cb Args D) × CdsRpc A N Cb Args) := do
  let (tCbFunctor, s) ← s.takeFunctor env now app nCbIdx
  return (tCbFunctor.toList.filterMap fun f => f.fCb.map fun fCb => .fCb fCb tData f.tArgs, s)

def onResponseError (env : RpcEnv A N Cb Args) (s : CdsRpc A N Cb Args) (now : ℤ) (app : A)
    (nCbIdx : Double) : Option (List (Invocation Cb Args D) × CdsRpc A N Cb Args) := do
  let (tCbFunctor, s) ← s.takeFunctor env now app nCbIdx
  return (tCbFunctor.toList.filterMap fun f => f.fError.map fun fError => .fError fError f.tArgs, s)

/-- What the closure of a timer does to its route, with the application that it has captured: what
has timed out is taken out, and the route is given up if nothing is left. -/
def takeTimeouts [IntCast N] (s : CdsRpc A N Cb Args)
    (order : PairsOrder Double (CbFunctor Cb Args)) (now : ℤ) (r : Addr) (app : A) :
    Option (List (CbFunctor Cb Args) × CdsRpc A N Cb Args) := do
  let route ← s.routes.lookup r
  let mgr ← route.timeoutmanager
  let (tTimeouts, mgr) := mgr.popTimeOut order now
  let route := { route with timeoutmanager := some mgr }
  if mgr.isEmpty then return (tTimeouts, s.teardown r route app)
  else return (tTimeouts, { s with routes := s.routes.insert r route })

/-- The closure of a timer. -/
def checkTimeout [IntCast N] (s : CdsRpc A N Cb Args)
    (order : PairsOrder Double (CbFunctor Cb Args)) (now : ℤ) (r : Addr) (app : A) :
    Option (List (Invocation Cb Args D) × CdsRpc A N Cb Args) := do
  let (tTimeouts, s) ← s.takeTimeouts order now r app
  return (tTimeouts.filterMap fun f => f.fTimeout.map fun fTimeout => .fTimeout fTimeout f.tArgs, s)

end CdsRpc

end CodeTest
