import CodeTest.MultiTask.Completion
import CodeTest.Rpc.Answered

/-!
# Calls in a pack

`multiCall` of `cotool.lua` starts a pack of tasks and makes a remote call for each of them, whose
callbacks report to the pack. Here the module of the calls and the module of the packs are one
system: besides the calls of `multiCall` there are calls with callbacks of their own, and replies,
ticks of the timers of both modules and callbacks come in any order.

The arguments of the callbacks that `multiCall` makes are the id of the pack and that of the task;
they carry in addition the number of the pack, which the code does not have. The messages that
`call` sends are left out.
-/

namespace CodeTest.Rpc

open MultiTask

/-- The callbacks that calls are given: those of `multiCall`, and any others. -/
inductive Callback (Cb : Type)
  | onPartReponse
  | onPartReponseTimeout
  | onPartResponseError
  | other (f : Cb)
deriving DecidableEq

/-- The arguments `nPackId` and `nTaskId` of the callbacks of `multiCall`, and the number of the
pack. -/
structure Part where
  pack : ℕ
  nPackId : Double
  nTaskId : ℕ
deriving DecidableEq

/-- What `multiCall` gives to the call for a part. -/
def partFunctor {Cb Args : Type} (part : Part) : CbFunctor (Callback Cb) (Part ⊕ Args) :=
  ⟨some .onPartReponse, .inl part, some .onPartReponseTimeout, some .onPartResponseError⟩

/-- The callbacks of a call that is not for a part. -/
def otherFunctor {Cb Args : Type} (f : CbFunctor Cb Args) :
    CbFunctor (Callback Cb) (Part ⊕ Args) :=
  ⟨f.fCb.map .other, .inr f.tArgs, f.fTimeout.map .other, f.fError.map .other⟩

/-- The modules of the calls and of the packs, and the applications that the calls of each pack go
to. -/
structure MultiCaller (A N Cb Args V : Type) where
  caller : Caller A N (Callback Cb) (Part ⊕ Args) (Value V)
  board : Board N Cb Args V
  groups : List (List A)

/-- What may happen next. -/
inductive MultiEvent (A N Cb Args V : Type)
  | multiCall (now : ℕ → ℤ) (tCalls : List A) (nTimeout1 nTimeout2 : Option N)
      (fFinish fTimeout : Option Cb) (tArgs : Args)
  | call (now : ℤ) (app : A) (nTimeout : Option N) (tCbFunctor : CbFunctor Cb Args)
  | onResponse (now : ℤ) (app : A) (nCbIdx : Double) (tData : Value V)
  | onResponseError (now : ℤ) (app : A) (nCbIdx : Double)
  | tick (now : ℤ) (t : Addr)
      (order : PairsOrder Double (CbFunctor (Callback Cb) (ℕ × (Part ⊕ Args))))
  | run
  | packTick (now : ℤ) (t : Addr) (order : PairsOrder Double (TaskPack (ℕ × Cb) (ℕ × Args) V))
  | packRun

namespace MultiCaller

variable {A N Cb Args V : Type} [DecidableEq A] [DecidableEq N]

def init (now : ℤ) : MultiCaller A N Cb Args V :=
  { caller := .init, board := .init now, groups := [] }

/-- The calls for the parts of a pack, with the time of each. -/
def partCalls (now : ℕ → ℤ) (tCalls : List A) (nTimeout : Option N) (pack : ℕ) (nPackId : Double)
    (tTaskIds : List ℕ) : List (Act A N (Callback Cb) (Part ⊕ Args) (Value V)) :=
  (tCalls.zip tTaskIds).map fun x => .call (now x.2) x.1 nTimeout (partFunctor ⟨pack, nPackId, x.2⟩)

section Step

variable [IntCast N] [Add N] [One N] [LE N] [DecidableLE N]

/-- `multiCall`; without `fFinish` it does nothing. -/
def multiCall (env : RpcEnv A N (Callback Cb) (ℕ × (Part ⊕ Args))) (newTimer : Allocator Unit)
    (s : MultiCaller A N Cb Args V) (now : ℕ → ℤ) (tCalls : List A)
    (nTimeout1 nTimeout2 : Option N) (fFinish fTimeout : Option Cb) (tArgs : Args) :
    Option (MultiCaller A N Cb Args V) :=
  if fFinish.isNone then some s
  else do
    let nCalls := tCalls.length
    let (ids, board) := s.board.step newTimer
      (.startMultiTask (now 0) ⟨nCalls, fFinish, fTimeout, tArgs⟩ nTimeout1)
    let (nPackId, tTaskIds) ← ids
    let caller ← (partCalls now tCalls nTimeout2 s.board.packs.length nPackId tTaskIds).foldlM
      (Caller.step env) s.caller
    return { caller, board, groups := s.groups ++ [tCalls] }

def onPartReponse (newTimer : Allocator Unit) (board : Board N Cb Args V) (tData : Value V)
    (nPackId : Double) (nTaskId : ℕ) : Board N Cb Args V :=
  (board.step newTimer (.onPartTaskFinish nPackId nTaskId tData)).2

def onPartReponseTimeout (newTimer : Allocator Unit) (board : Board N Cb Args V)
    (nPackId : Double) (nTaskId : ℕ) : Board N Cb Args V :=
  (board.step newTimer (.onPartTaskFinish nPackId nTaskId .emptyTable)).2

def onPartResponseError (newTimer : Allocator Unit) (board : Board N Cb Args V)
    (nPackId : Double) (nTaskId : ℕ) : Board N Cb Args V :=
  (board.step newTimer (.onPartTaskFinish nPackId nTaskId .emptyTable)).2

/-- A callback of a call is run. -/
def execute (newTimer : Allocator Unit) (board : Board N Cb Args V) :
    Invocation (Callback Cb) (ℕ × (Part ⊕ Args)) (Value V) → Board N Cb Args V
  | .fCb .onPartReponse tData (_, .inl part) =>
    onPartReponse newTimer board tData part.nPackId part.nTaskId
  | .fTimeout .onPartReponseTimeout (_, .inl part) =>
    onPartReponseTimeout newTimer board part.nPackId part.nTaskId
  | .fError .onPartResponseError (_, .inl part) =>
    onPartResponseError newTimer board part.nPackId part.nTaskId
  | _ => board

/-- One step. Callbacks of calls and of packs wait in queues of their own; what such a callback
does itself comes between this callback and the next. -/
def step (env : RpcEnv A N (Callback Cb) (ℕ × (Part ⊕ Args))) (newTimer : Allocator Unit)
    (s : MultiCaller A N Cb Args V) : MultiEvent A N Cb Args V → Option (MultiCaller A N Cb Args V)
  | .multiCall now tCalls nTimeout1 nTimeout2 fFinish fTimeout tArgs =>
    s.multiCall env newTimer now tCalls nTimeout1 nTimeout2 fFinish fTimeout tArgs
  | .call now app nTimeout f => do
    let caller ← s.caller.step env (.call now app nTimeout (otherFunctor f))
    return { s with caller }
  | .onResponse now app nCbIdx tData => do
    let caller ← s.caller.step env (.onResponse now app nCbIdx tData)
    return { s with caller }
  | .onResponseError now app nCbIdx => do
    let caller ← s.caller.step env (.onResponseError now app nCbIdx)
    return { s with caller }
  | .tick now t order => do
    let caller ← s.caller.step env (.tick now t order)
    return { s with caller }
  | .run => do
    let caller ← s.caller.step env .run
    return { s with caller, board := s.caller.queue.head?.elim s.board (execute newTimer s.board) }
  | .packTick now t order => some { s with board := (s.board.step newTimer (.tick now t order)).2 }
  | .packRun => some { s with board := (s.board.step newTimer .run).2 }

/-- The parts of which no callback has been run so far. -/
def outstanding (s : MultiCaller A N Cb Args V) : List Part :=
  (List.range s.caller.calls.length).filterMap fun k =>
    if k ∈ s.caller.executed.map (fun i => i.tArgs.1) then none
    else s.caller.calls[k]?.bind fun x => x.2.tArgs.getLeft?

/-- A pack has at least one part, and an id that belongs neither to a pack that is alive nor to a
part that may still report; no call is made under an index that is still pending. -/
def Allowed (env : RpcEnv A N (Callback Cb) (ℕ × (Part ⊕ Args)))
    (s : MultiCaller A N Cb Args V) : MultiEvent A N Cb Args V → Prop
  | .multiCall now tCalls _ nTimeout2 fFinish _ _ =>
    fFinish.isSome → tCalls ≠ [] ∧ s.board.tasks.pack s.board.tasks.nextId = none ∧
      (∀ part ∈ s.outstanding, part.nPackId ≠ s.board.tasks.nextId) ∧
      PartialMachine.Meets (Caller.step env) Caller.FreeIdx s.caller
        (partCalls now tCalls nTimeout2 s.board.packs.length s.board.tasks.nextId
          ((List.range tCalls.length).map fun i => i + 1))
  | .call _ app _ _ => s.caller.rpc.pending app (s.caller.rpc.nextIdx app) = none
  | _ => True

instance decidableAllowed (env : RpcEnv A N (Callback Cb) (ℕ × (Part ⊕ Args)))
    (s : MultiCaller A N Cb Args V) : ∀ e, Decidable (Allowed env s e)
  | .multiCall now tCalls _ nTimeout2 fFinish _ _ =>
    inferInstanceAs (Decidable (fFinish.isSome → tCalls ≠ [] ∧
      s.board.tasks.pack s.board.tasks.nextId = none ∧
      (∀ part ∈ s.outstanding, part.nPackId ≠ s.board.tasks.nextId) ∧
      PartialMachine.Meets (Caller.step env) Caller.FreeIdx s.caller
        (partCalls now tCalls nTimeout2 s.board.packs.length s.board.tasks.nextId
          ((List.range tCalls.length).map fun i => i + 1))))
  | .call _ app _ _ =>
    inferInstanceAs (Decidable (s.caller.rpc.pending app (s.caller.rpc.nextIdx app) = none))
  | .onResponse _ _ _ _ => isTrue trivial
  | .onResponseError _ _ _ => isTrue trivial
  | .tick _ _ _ => isTrue trivial
  | .run => isTrue trivial
  | .packTick _ _ _ => isTrue trivial
  | .packRun => isTrue trivial

end Step

/-- The call `k` was made to the application at the position `i` of the group of the pack with the
number `c`. -/
def IsPart (s : MultiCaller A N Cb Args V) (c i k : ℕ) : Prop :=
  ∃ tCalls app nPackId, s.groups[c]? = some tCalls ∧ tCalls[i]? = some app ∧
    s.caller.calls[k]? = some (app, partFunctor ⟨c, nPackId, i + 1⟩)

/-- The call `k` waits for its outcome, or its callback waits to be run. -/
def Open (s : MultiCaller A N Cb Args V) (k : ℕ) : Prop :=
  (∃ app f, s.caller.calls[k]? = some (app, f) ∧ s.caller.Pending k app f) ∨
    ∃ i ∈ s.caller.queue, i.tArgs.1 = k

end MultiCaller

end CodeTest.Rpc
