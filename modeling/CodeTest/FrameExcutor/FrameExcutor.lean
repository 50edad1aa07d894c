import CodeTest.Foundations.Machine
import CodeTest.Foundations.Memory
import Mathlib.Tactic

/-!
# Execution in batches

The class `FrameExcutor` of `timertool.lua`. A function is executed for the elements of a list, in
batches: the first one when `start` is called, if this is wanted, and one at every tick of a timer.
After the last element the timer is removed and a callback is run.

The list can change while the batches are executed, between two ticks or by the function itself. So
the state `Running` of an execution has besides the object the timers, the point at which the
execution stands, and a log of the calls; the end of a call of the function is an event of its own.
Integers of Lua have 64 bits. Of the sums in this class only the one with `nExcutionCount` can leave
their range.
-/

namespace CodeTest

/-- An integer of Lua: the result of an operation is reduced to 64 bits. -/
def luaInt (n : ℤ) : ℤ := n.bmod (2 ^ 64)

theorem luaInt_eq {n : ℤ} (h₀ : 0 ≤ n) (h : n < 2 ^ 63) : luaInt n = n := by
  rw [luaInt, Int.bmod_eq_of_le] <;> omega

/-- The fields of an object. `nTimerId`, `nIndex` and `bEnd` are set by `start`. -/
structure FrameExcutor (Elem Param : Type) where
  sDesc : String
  tExcutionList : List Elem
  nInterval : ℤ
  nExcutionCount : ℤ
  bInstant : Bool
  /-- Whether the callback `fOver` is given. -/
  fOver : Bool
  tFuncParam : Param
  nTimerId : Addr
  nIndex : ℤ
  bEnd : Bool

namespace FrameExcutor

variable {Elem Param : Type}

def ctor (sDesc : String) (tList : List Elem) (nInterval nExcutionCount : Option ℤ)
    (bInstant : Option Bool) (fOver : Bool) (tFuncParam : Param) : FrameExcutor Elem Param where
  sDesc := sDesc
  tExcutionList := tList
  nInterval := nInterval.getD (1 * 1000)
  nExcutionCount := nExcutionCount.getD 100
  bInstant := bInstant.getD true
  fOver := fOver
  tFuncParam := tFuncParam
  nTimerId := 0
  nIndex := 1
  bEnd := false

/-- `self.tExcutionList[i]`. -/
def elem (self : FrameExcutor Elem Param) (i : ℤ) : Option Elem :=
  if 1 ≤ i then self.tExcutionList[(i - 1).toNat]? else none

/-- The point at which an execution stands. -/
inductive Control
  /-- `start` has not been called. -/
  | new
  /-- Nothing of the object is running. -/
  | idle
  /-- The function is running for the index `i` of a batch that ends at `nMax`. The batch was begun
  by `start` or by the timer. -/
  | call (fromStart : Bool) (i nMax : ℤ)
deriving DecidableEq

/-- A call of one of the two functions; `fOver` is called when the list is `tList`. -/
inductive Call (Elem Param : Type)
  | fExcute (i : ℤ) (elem : Option Elem) (param : Param)
  | fOver (tList : List Elem)
deriving DecidableEq

inductive Event (Elem : Type)
  | start
  /-- The timer of the object fires. -/
  | tick
  /-- The function returns or raises an error. -/
  | ret (raises : Bool)
  /-- The list is changed, but not shortened. -/
  | change (tList : List Elem)

/-- An object with the timers of the module `SvrTimer`, their intervals and descriptions, the calls
that were made, and what was passed to `Logger.error`. -/
structure Running (Elem Param : Type) where
  self : FrameExcutor Elem Param
  timers : Memory (ℤ × String)
  control : Control
  log : List (Call Elem Param)
  logged : List (String × Option Elem)

namespace Running

variable (newTimer : Allocator (ℤ × String)) (r : Running Elem Param)

def init (self : FrameExcutor Elem Param) (timers : Memory (ℤ × String)) : Running Elem Param :=
  { self, timers, control := .new, log := [], logged := [] }

/-- `over`. -/
def onOver : Running Elem Param :=
  { r with
    self := { r.self with bEnd := true }
    timers := if r.self.nTimerId ≠ 0 then r.timers.erase r.self.nTimerId else r.timers
    log := r.log ++ if r.self.fOver then [.fOver r.self.tExcutionList] else [] }

def setIndex (nIndex : ℤ) : Running Elem Param := { r with self := { r.self with nIndex } }

/-- The end of `excute`, after the loop. -/
def endBatch (nMax : ℤ) : Running Elem Param :=
  if (r.self.tExcutionList.length : ℤ) < nMax + 1 then (r.setIndex (nMax + 1)).onOver
  else r.setIndex (nMax + 1)

/-- The end of `start`, after the first batch if there is one. -/
def addTimer : Running Elem Param :=
  if r.self.bEnd then { r with control := .idle }
  else
    let nTimerId := newTimer.fresh r.timers
    { r with
      self := { r.self with nTimerId }
      timers := r.timers.insert nTimerId (r.self.nInterval, "FrameExcutor_" ++ r.self.sDesc)
      control := .idle }

/-- The loop of `excute` at the index `i`, and what comes after it. -/
def loop (fromStart : Bool) (i nMax : ℤ) : Running Elem Param :=
  if i ≤ nMax then
    { r with
      control := .call fromStart i nMax
      log := r.log ++ [.fExcute i (r.self.elem i) r.self.tFuncParam] }
  else if fromStart then (r.endBatch nMax).addTimer newTimer
  else { r.endBatch nMax with control := .idle }

def excute (fromStart : Bool) : Running Elem Param :=
  let nMax := min (r.self.tExcutionList.length : ℤ)
    (luaInt (luaInt (r.self.nIndex + r.self.nExcutionCount) - 1))
  r.loop newTimer fromStart r.self.nIndex nMax

/-- What `start` assigns. -/
def reset : Running Elem Param :=
  { r with self := { r.self with nTimerId := 0, nIndex := 1, bEnd := false } }

def start : Running Elem Param :=
  if r.reset.self.bInstant then r.reset.excute newTimer true else r.reset.addTimer newTimer

/-- The call of the function ends: `xpcall` catches an error, and the loop goes on. -/
def ret (raises fromStart : Bool) (i nMax : ℤ) : Running Elem Param :=
  let logged := r.logged ++ if raises then [(r.self.sDesc, r.self.elem i)] else []
  { r with logged }.loop newTimer fromStart (i + 1) nMax

/-- What an event leads to. -/
def step : Event Elem → Option (Running Elem Param)
  | .start => if r.control = .new then some (r.start newTimer) else none
  | .tick =>
    if r.control = .idle ∧ r.self.nTimerId ≠ 0 ∧ (r.timers.lookup r.self.nTimerId).isSome then
      some (r.excute newTimer false)
    else none
  | .ret raises =>
    match r.control with
    | .call fromStart i nMax => some (r.ret newTimer raises fromStart i nMax)
    | _ => none
  | .change tList =>
    if r.self.tExcutionList.length ≤ tList.length then
      some { r with self := { r.self with tExcutionList := tList } }
    else none

end Running

end FrameExcutor

end CodeTest
