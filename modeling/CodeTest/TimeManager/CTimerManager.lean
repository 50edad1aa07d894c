import CodeTest.Foundations.Machine
import CodeTest.Foundations.Table
import Mathlib.Tactic

/-!
# Timers under flags

`timemanager.py`. A `CTimerManager` schedules a function under a flag, and its map leads from a flag
to the timer that was scheduled last under it. When a timer fires, it removes what the map has for
its flag, and then its function is called.

A timer of the library runs its function once, unless it was cancelled before. Which one fires next
is left open. What a function does when it is called, such as scheduling itself again as `MyReload`
does, are operations that come after the firing.
-/

namespace CodeTest

/-- What became of a timer. -/
inductive TimerStatus
  | pending
  | cancelled
  | fired
deriving DecidableEq

/-- `threading.Timer`, with the arguments of the `Functor` that it runs. -/
structure ThreadingTimer (Flag F : Type*) where
  iTime : ℕ
  sFlag : Flag
  oFunc : F
  status : TimerStatus

/-- The method `cancel` of a timer. It has no effect on one that has fired. -/
def ThreadingTimer.cancel {Flag F : Type*} (t : ThreadingTimer Flag F) : ThreadingTimer Flag F :=
  if t.status = .pending then { t with status := .cancelled } else t

/-- The timers in the order of their creation, in which the position stands for the object, and the
map. -/
structure CTimerManager (Flag F : Type*) where
  timers : List (ThreadingTimer Flag F)
  m_Map : Table Flag ℕ

namespace CTimerManager

variable {Flag F : Type*}

/-- `__init__`. -/
def init : CTimerManager Flag F := ⟨[], ∅⟩

section Operations

variable [DecidableEq Flag]

/-- `Remove_Call_out`. -/
def removeCallOut (m : CTimerManager Flag F) (sFlag : Flag) : CTimerManager Flag F :=
  match m.m_Map.lookup sFlag with
  | none => m
  | some id => ⟨m.timers.modify id ThreadingTimer.cancel, m.m_Map.erase sFlag⟩

/-- `Call_out`. -/
def callOut (m : CTimerManager Flag F) (iTime : ℕ) (sFlag : Flag) (oFunc : F) :
    CTimerManager Flag F :=
  ⟨m.timers ++ [⟨iTime, sFlag, oFunc, .pending⟩], m.m_Map.insert sFlag m.timers.length⟩

/-- `_Execute`, up to the call of the function, which is the answer. -/
def execute (m : CTimerManager Flag F) (oFunc : F) (sFlag : Flag) :
    Option F × CTimerManager Flag F :=
  (some oFunc, m.removeCallOut sFlag)

/-- The time of the timer `id` is up. -/
def fire (m : CTimerManager Flag F) (id : ℕ) : Option F × CTimerManager Flag F :=
  match m.timers[id]? with
  | none => (none, m)
  | some t =>
    if t.status = .pending then
      { m with timers := m.timers.set id { t with status := .fired } }.execute t.oFunc t.sFlag
    else (none, m)

inductive Op (Flag F : Type*)
  | callOut (iTime : ℕ) (sFlag : Flag) (oFunc : F)
  | removeCallOut (sFlag : Flag)
  | fire (id : ℕ)

def step : Machine (CTimerManager Flag F) (Op Flag F) (Option F)
  | m, .callOut iTime sFlag oFunc => (none, m.callOut iTime sFlag oFunc)
  | m, .removeCallOut sFlag => (none, m.removeCallOut sFlag)
  | m, .fire id => m.fire id

end Operations

/-! ## Pending timers -/

variable {m : CTimerManager Flag F} {id id' : ℕ} {sFlag sFlag' : Flag}
  {t : ThreadingTimer Flag F}

/-- The flag of a timer, as long as it is neither cancelled nor has fired. -/
def pendingFlag (m : CTimerManager Flag F) (id : ℕ) : Option Flag :=
  m.timers[id]?.bind fun t => if t.status = .pending then some t.sFlag else none

theorem pendingFlag_eq_some_iff :
    m.pendingFlag id = some sFlag ↔
      ∃ t, m.timers[id]? = some t ∧ t.status = .pending ∧ t.sFlag = sFlag := by
  rw [pendingFlag, Option.bind_eq_some_iff]
  apply exists_congr
  intro t
  apply and_congr_right
  intro _
  split_ifs with h <;> simp [h]

/-- The status of a timer. -/
def statusAt (m : CTimerManager Flag F) (id : ℕ) : Option TimerStatus :=
  m.timers[id]?.map ThreadingTimer.status

theorem statusAt_of_pendingFlag (h : m.pendingFlag id = some sFlag) :
    m.statusAt id = some .pending := by
  obtain ⟨t, ht, hstatus, -⟩ := pendingFlag_eq_some_iff.mp h
  rw [statusAt, ht, Option.map_some, hstatus]

theorem cancel_status_ne (t : ThreadingTimer Flag F) : t.cancel.status ≠ .pending := by
  rw [ThreadingTimer.cancel]
  split_ifs with h
  · simp
  · exact h

theorem lt_of_pendingFlag (h : m.pendingFlag id = some sFlag) : id < m.timers.length := by
  obtain ⟨t, ht, -⟩ := pendingFlag_eq_some_iff.mp h
  exact (List.getElem?_eq_some_iff.mp ht).1

/-- The timers when the time of one of them is up, before it removes what the map has. -/
def fired (m : CTimerManager Flag F) (id : ℕ) (t : ThreadingTimer Flag F) :
    CTimerManager Flag F :=
  { m with timers := m.timers.set id { t with status := .fired } }

theorem fired_timers (ht : m.timers[id]? = some t) (id' : ℕ) :
    (m.fired id t).timers[id']? =
      if id' = id then some { t with status := .fired } else m.timers[id']? := by
  have hlt := (List.getElem?_eq_some_iff.mp ht).1
  rw [fired, List.getElem?_set]
  by_cases h : id = id'
  · simp [← h, hlt]
  · rw [if_neg h, if_neg (Ne.symm h)]

theorem fired_pendingFlag (ht : m.timers[id]? = some t) (id' : ℕ) :
    (m.fired id t).pendingFlag id' = if id' = id then none else m.pendingFlag id' := by
  rw [pendingFlag, fired_timers ht]
  split_ifs <;> rfl

/-! ## What an operation does to the timers -/

variable [DecidableEq Flag]

theorem removeCallOut_timers (m : CTimerManager Flag F) (sFlag : Flag) (id : ℕ) :
    (m.removeCallOut sFlag).timers[id]? =
      if m.m_Map.lookup sFlag = some id then m.timers[id]?.map ThreadingTimer.cancel
      else m.timers[id]? := by
  unfold removeCallOut
  cases hid : m.m_Map.lookup sFlag with
  | none => simp
  | some id' =>
    rw [List.getElem?_modify]
    by_cases h : id' = id
    · simp [h]
    · simp [h]

theorem removeCallOut_map (m : CTimerManager Flag F) (sFlag sFlag' : Flag) :
    (m.removeCallOut sFlag).m_Map.lookup sFlag' =
      if sFlag' = sFlag then none else m.m_Map.lookup sFlag' := by
  unfold removeCallOut
  cases hid : m.m_Map.lookup sFlag with
  | none =>
    split_ifs with h
    · rw [h, hid]
    · rfl
  | some id => exact Table.lookup_erase_eq _ _ _

theorem removeCallOut_pendingFlag (m : CTimerManager Flag F) (sFlag : Flag) (id : ℕ) :
    (m.removeCallOut sFlag).pendingFlag id =
      if m.m_Map.lookup sFlag = some id then none else m.pendingFlag id := by
  rw [pendingFlag, removeCallOut_timers]
  split_ifs with h
  · rw [Option.bind_map, Option.bind_eq_none_iff]
    intro t _
    exact if_neg (cancel_status_ne t)
  · rfl

theorem callOut_timers (m : CTimerManager Flag F) (iTime : ℕ) (sFlag : Flag) (oFunc : F) (id : ℕ) :
    (m.callOut iTime sFlag oFunc).timers[id]? =
      if id = m.timers.length then some ⟨iTime, sFlag, oFunc, .pending⟩ else m.timers[id]? := by
  rw [callOut, List.getElem?_append]
  split_ifs with hlt h h
  · omega
  · rfl
  · simp [h]
  · rw [List.getElem?_eq_none (by simp; omega), List.getElem?_eq_none (by omega)]

theorem callOut_pendingFlag (m : CTimerManager Flag F) (iTime : ℕ) (sFlag : Flag) (oFunc : F)
    (id : ℕ) :
    (m.callOut iTime sFlag oFunc).pendingFlag id =
      if id = m.timers.length then some sFlag else m.pendingFlag id := by
  rw [pendingFlag, callOut_timers]
  split_ifs <;> rfl

/-- A timer fires if it is pending, and otherwise nothing happens. -/
theorem fire_cases (m : CTimerManager Flag F) (id : ℕ) :
    (∃ t, m.timers[id]? = some t ∧ t.status = .pending ∧
      m.fire id = (some t.oFunc, (m.fired id t).removeCallOut t.sFlag)) ∨
    (m.pendingFlag id = none ∧ m.fire id = (none, m)) := by
  unfold fire pendingFlag
  cases ht : m.timers[id]? with
  | none => exact .inr ⟨rfl, rfl⟩
  | some t =>
    by_cases hstatus : t.status = .pending
    · left
      exact ⟨t, rfl, hstatus, by simp [hstatus, execute, fired]⟩
    · right
      simp [hstatus]

end CTimerManager

end CodeTest
