import CodeTest.Foundations.Double
import CodeTest.Foundations.Memory
import CodeTest.TimeOut.Live

/-!
# Packs of tasks

`CoMultiTaskMod` of `cotool.lua`. A pack of tasks is started with a number of tasks and two
callbacks: one for when every task has reported its result, and one for when this takes too long.
The packs are kept in a `TimeOutManager` under their ids, and while there are any a timer looks for
those that have timed out. The module `SvrTimer` is the table of the timers that are registered for
this.

The ids of packs are numbers, so the order in which `next` goes through the tables of the
`TimeOutManager` does not matter, and none is given.

As in the model of the remote calls, callbacks that an operation runs at its end are returned as a
list.
-/

namespace CodeTest

/-- `KEEP_ALIVE_TIME`, in seconds. -/
def keepAliveTime : ℤ := 5 * 60

/-- `genPackId` and `genCbIdx`, on the counter: the id and the counter afterwards. The quotient
`2 / 0xffffffff` is rounded to 2⁻³¹ + 2⁻⁶³. -/
def genIdx (record : Double) : Double × Double :=
  let record := if record = 0 then 2 ^ 32 + 1 else record
  let next := record.add (.ofNat 1)
  (record, if .ofNat 0xffffffff < next then .ofNat 1 else next)

/-- `SvrTimer.remove`. -/
def SvrTimer.remove {V : Type} (timers : Memory V) : Option Addr → Memory V
  | none => timers
  | some t => timers.erase t

/-- The values of Lua, as far as `or` and `{}` tell them apart. -/
inductive Value (V : Type)
  | nil
  | bool (b : Bool)
  | emptyTable
  | other (v : V)
deriving DecidableEq

/-- The operator `or`. -/
def Value.or {V : Type} : Value V → Value V → Value V
  | .nil, y => y
  | .bool false, y => y
  | x, _ => x

/-- `TableUtil.count`, for a table whose keys are numbers: for these `not next(tb)` says that there
are none. -/
def TableUtil.count {K V : Type} (tb : Table K V) : ℕ :=
  if tb.entries = [] then 0 else tb.entries.foldl (fun dCount _ => dCount + 1) 0

theorem TableUtil.count_eq {K V : Type} (tb : Table K V) : count tb = tb.keys.length := by
  rw [count, List.foldl_add_const, AList.keys, List.keys, List.length_map]
  split_ifs with h
  · rw [h]
    rfl
  · omega

structure TaskPack (Cb Args V : Type) where
  nPackId : Double
  nTasks : ℕ
  tArgs : Args
  fFinish : Option Cb
  fTimeout : Option Cb
  tResult : Table ℕ (Value V)

/-- A callback that is run, with its arguments. -/
inductive PackInvocation (Cb Args V : Type)
  | fFinish (f : Cb) (tResult : Table ℕ (Value V)) (tArgs : Args)
  | fTimeout (f : Cb) (tResult : Table ℕ (Value V))

namespace TimeOutManager

variable {N F T : Type*} [DecidableEq N] [DecidableEq F]

/-- A task is a table: who has got it with `get` can write to it where it is stored. -/
def write (m : TimeOutManager N F T) (flag : F) (task : T) : TimeOutManager N F T :=
  match m.tFlag2TS.lookup flag with
  | none => m
  | some nDDL =>
    { m with
      tTimeSlot := m.tTimeSlot.insert nDDL (((m.tTimeSlot.lookup nDDL).getD ∅).insert flag task) }

end TimeOutManager

/-- The state of the module and of the timers. -/
structure CoMultiTask (N Cb Args V : Type) where
  lg_nIDRecord : Double
  lg_TimeOutMgr : TimeOutManager N Double (TaskPack Cb Args V)
  lg_nTimerId : Option Addr
  timers : Memory Unit

namespace CoMultiTask

variable {N Cb Args V : Type} [DecidableEq N]

/-- The module when it is loaded. -/
def init (now : ℤ) : CoMultiTask N Cb Args V :=
  { lg_nIDRecord := 0, lg_TimeOutMgr := .ctor now, lg_nTimerId := none, timers := ∅ }

/-- The id of the pack and those of its tasks. -/
def startMultiTask [IntCast N] [Add N] [One N] [LE N] [DecidableLE N] (newTimer : Allocator Unit)
    (s : CoMultiTask N Cb Args V) (now : ℤ) (nTasks : ℕ) (fFinish fTimeout : Option Cb)
    (nTimeout : Option N) (tArgs : Args) : (Double × List ℕ) × CoMultiTask N Cb Args V :=
  let (nPackId, lg_nIDRecord) := genIdx s.lg_nIDRecord
  let lg_TimeOutMgr := s.lg_TimeOutMgr.push nPackId (nTimeout.getD (keepAliveTime : N))
    ⟨nPackId, nTasks, tArgs, fFinish, fTimeout, ∅⟩ now
  let tTaskIds := (List.range nTasks).map fun i => i + 1
  match s.lg_nTimerId with
  | some _ => ((nPackId, tTaskIds), { s with lg_nIDRecord, lg_TimeOutMgr })
  | none =>
    let t := newTimer.fresh s.timers
    ((nPackId, tTaskIds),
      { lg_nIDRecord, lg_TimeOutMgr, lg_nTimerId := some t, timers := s.timers.insert t () })

/-- The end of `checkTimoutPack` and `onAllTaskFinish` before their callbacks: the timer is removed
when no packs are left. -/
def stopTimer (s : CoMultiTask N Cb Args V) : CoMultiTask N Cb Args V :=
  if s.lg_TimeOutMgr.isEmpty then
    { s with timers := SvrTimer.remove s.timers s.lg_nTimerId, lg_nTimerId := none }
  else s

def checkTimoutPack [IntCast N] (s : CoMultiTask N Cb Args V)
    (order : PairsOrder Double (TaskPack Cb Args V)) (now : ℤ) :
    List (PackInvocation Cb Args V) × CoMultiTask N Cb Args V :=
  let (tPacks, lg_TimeOutMgr) := s.lg_TimeOutMgr.popTimeOut order now
  let s := { s with lg_TimeOutMgr }.stopTimer
  (tPacks.filterMap fun tPack =>
    tPack.fTimeout.map fun fTimeout => .fTimeout fTimeout tPack.tResult, s)

def onAllTaskFinish (s : CoMultiTask N Cb Args V) (tPack : TaskPack Cb Args V) :
    List (PackInvocation Cb Args V) × CoMultiTask N Cb Args V :=
  let (_, lg_TimeOutMgr) := s.lg_TimeOutMgr.pop tPack.nPackId
  let s := { s with lg_TimeOutMgr }.stopTimer
  ((tPack.fFinish.map fun fFinish => .fFinish fFinish tPack.tResult tPack.tArgs).toList, s)

def onPartTaskFinish (s : CoMultiTask N Cb Args V) (nPackId : Double) (nTaskId : ℕ)
    (tData : Value V) : List (PackInvocation Cb Args V) × CoMultiTask N Cb Args V :=
  match s.lg_TimeOutMgr.get nPackId with
  | none => ([], s)
  | some tPack =>
    let tRet := tData.or .emptyTable
    let tPack := { tPack with tResult := tPack.tResult.insert nTaskId tRet }
    let s := { s with lg_TimeOutMgr := s.lg_TimeOutMgr.write nPackId tPack }
    if TableUtil.count tPack.tResult = tPack.nTasks then s.onAllTaskFinish tPack else ([], s)

end CoMultiTask

end CodeTest
